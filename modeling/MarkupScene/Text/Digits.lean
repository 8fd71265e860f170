/-!
# Digits

Natural numbers are read and written in a base up to sixteen. Reading takes letters of either
case for the digits from ten on.
-/
namespace MarkupScene.Text

/-- The value of a digit of the base. -/
def digit? (base : Nat) (c : Char) : Option Nat :=
  let v :=
    if c.isDigit then c.toNat - '0'.toNat
    else if 'a' ≤ c ∧ c ≤ 'f' then c.toNat - 'a'.toNat + 10
    else if 'A' ≤ c ∧ c ≤ 'F' then c.toNat - 'A'.toNat + 10
    else base
  if v < base then some v else none

/-- The number that the digits write after the digits already read as `acc`. -/
def naturalFrom (base acc : Nat) : List Char → Option Nat
  | [] => some acc
  | c :: rest => (digit? base c).bind fun v => naturalFrom base (acc * base + v) rest

/-- A number is one digit or more. -/
def natural? (base : Nat) (s : List Char) : Option Nat :=
  if s.isEmpty then none else naturalFrom base 0 s

/-- A number below `2 ^ 32`, of one digit or more, after at most one plus sign. -/
def word? (base : Nat) (s : List Char) : Option Nat :=
  let digits := match s with
    | '+' :: rest => rest
    | _ => s
  (natural? base digits).filter (· < UInt32.size)

/-- The decimal digits at the start of a text, and the rest. -/
def takeDigits (s : List Char) : List Char × List Char :=
  (s.takeWhile Char.isDigit, s.dropWhile Char.isDigit)

theorem takeDigits_append {cs rest : List Char} (hcs : ∀ c ∈ cs, c.isDigit = true)
    (hrest : ∀ c ∈ rest.head?, c.isDigit = false) : takeDigits (cs ++ rest) = (cs, rest) := by
  induction cs with
  | nil =>
    cases rest with
    | nil => rfl
    | cons c rest =>
      have hc := hrest c rfl
      simp [takeDigits, hc]
  | cons c cs ih =>
    have hc := hcs c List.mem_cons_self
    have hrec := ih fun d hd => hcs d (List.mem_cons_of_mem _ hd)
    simp only [takeDigits, Prod.mk.injEq] at hrec ⊢
    simp [hc, hrec]

theorem takeDigits_digits {cs : List Char} (hcs : ∀ c ∈ cs, c.isDigit = true) :
    takeDigits cs = (cs, []) := by
  have htake : takeDigits (cs ++ []) = (cs, []) := takeDigits_append hcs fun _ h => nomatch h
  rwa [List.append_nil] at htake

/-- The number that a run of decimal digits writes. -/
def decimalValue (digits : List Char) : Nat :=
  digits.foldl (fun acc c => acc * 10 + (c.toNat - '0'.toNat)) 0

/-- Lower-case digits of a number below the base. -/
def digitChar (v : Nat) : Char :=
  if v < 10 then Char.ofNat ('0'.toNat + v) else Char.ofNat ('a'.toNat + (v - 10))

/-- The number modulo `base ^ count`, in exactly `count` digits. -/
def fixedDigits (base : Nat) : Nat → Nat → List Char
  | 0, _ => []
  | count + 1, n => fixedDigits base count (n / base) ++ [digitChar (n % base)]

end MarkupScene.Text

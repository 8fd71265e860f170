import MarkupScene.Json.Reader
import MarkupScene.Proofs.PrintedNumbers

/-!
# Printed values

The reader gets back what the printer was given. A text is cut into the tokens of the value that it
was printed from, and the machine puts them together again. The main statement is that a value that
is not nested too deeply and whose integers fit in eight bytes is read as itself, except that its
doubles become what their texts are read as.
-/
namespace MarkupScene.Json

open Numeric Text

namespace Token

theorem exists_codeUnit {n : Nat} (hn : n < 0x20) :
    ∃ a b c d, fixedDigits 16 4 n = [a, b, c, d] ∧ codeUnit? a b c d = some n := by
  have hread : ∀ n < 0x20, codeUnit? (digitChar (n / 16 / 16 / 16 % 16))
      (digitChar (n / 16 / 16 % 16)) (digitChar (n / 16 % 16)) (digitChar (n % 16)) = some n := by
    decide
  exact ⟨_, _, _, _, rfl, hread n hn⟩

/-- The spelling of a character is read as one mark, which stands for the character. -/
theorem exists_mark (c : Char) :
    ∃ m, (∀ read rest, marks? read (escapeChar c ++ rest) = marks? (m :: read) rest) ∧
      ∀ ms, textOf? (m :: ms) = (textOf? ms).map (c :: ·) := by
  have hplain : ∀ ms, textOf? (.char c :: ms) = (textOf? ms).map (c :: ·) := fun _ => rfl
  unfold escapeChar
  split
  · exact ⟨.char '"', fun _ _ => rfl, hplain⟩
  · exact ⟨.char '\\', fun _ _ => rfl, hplain⟩
  · exact ⟨.char '\x08', fun _ _ => rfl, hplain⟩
  · exact ⟨.char '\x0c', fun _ _ => rfl, hplain⟩
  · exact ⟨.char '\n', fun _ _ => rfl, hplain⟩
  · exact ⟨.char '\r', fun _ _ => rfl, hplain⟩
  · exact ⟨.char '\t', fun _ _ => rfl, hplain⟩
  · next hquote hbackslash _ _ _ _ _ =>
    split
    · next hcontrol =>
      obtain ⟨a, b, x, d, hdigits, hunit⟩ := exists_codeUnit hcontrol
      refine ⟨.unit c.toNat, fun read rest => ?_, fun ms => ?_⟩
      · rw [hdigits]
        simp [marks?, hunit]
      · have hlow : c.toNat < 0xD800 ∨ 0xE000 ≤ c.toNat := .inl (by omega)
        conv_lhs => unfold textOf?
        simp [hlow]
    · next hcontrol =>
      refine ⟨.char c, fun read rest => ?_, hplain⟩
      rw [List.singleton_append]
      conv_lhs => unfold marks?
      split
      · next h => exact absurd (List.cons.inj h).1 hquote
      · next h => exact absurd (List.cons.inj h).1 hbackslash
      · next h => exact absurd (List.cons.inj h).1 hbackslash
      · next h =>
        obtain ⟨rfl, rfl⟩ := List.cons.inj h
        exact if_neg hcontrol
      · next h => cases h

theorem exists_marks (cs : List Char) :
    ∃ ms, (∀ read rest, marks? read (cs.flatMap escapeChar ++ '"' :: rest) =
        some (read.reverse ++ ms, rest)) ∧ textOf? ms = some cs := by
  induction cs with
  | nil => exact ⟨[], fun read rest => by simp [marks?], rfl⟩
  | cons c cs ih =>
    obtain ⟨m, hm, htext⟩ := exists_mark c
    obtain ⟨ms, hms, htexts⟩ := ih
    refine ⟨m :: ms, fun read rest => ?_, ?_⟩
    · rw [List.flatMap_cons, List.append_assoc, hm, hms, List.reverse_cons, List.append_assoc]
      rfl
    · rw [htext, htexts]
      rfl

variable {rest : List Char}

theorem scan?_space {c : Char} (hc : isSpace c = true) : scan? (c :: rest) = scan? rest := by
  rw [scan?, if_pos hc]

theorem scan?_newLine (level : Nat) : scan? ((newLine level).toList ++ rest) = scan? rest := by
  have hspaces : ∀ n, scan? (List.replicate n ' ' ++ rest) = scan? rest := by
    intro n
    induction n with
    | zero => rfl
    | succ n ih =>
      rw [List.replicate_succ, List.cons_append, scan?_space rfl, ih]
  have hline : (newLine level).toList = '\n' :: List.replicate (2 * level) ' ' := by simp [newLine]
  rw [hline, List.cons_append, scan?_space rfl, hspaces]

theorem scan?_quoted (s : String) :
    scan? ((quoted s).toList ++ rest) = (scan? rest).map (string (some s) :: ·) := by
  obtain ⟨ms, hms, htext⟩ := exists_marks s.toList
  have hread := hms [] rest
  rw [List.reverse_nil, List.nil_append] at hread
  rw [quoted, String.toList_ofList, List.cons_append, List.cons_append, List.append_assoc,
    List.singleton_append, scan?, if_neg (by decide), if_pos rfl]
  split
  · next marks after h =>
    rw [hread] at h
    obtain ⟨rfl, rfl⟩ := Prod.mk.inj (Option.some.inj h)
    rw [htext, Option.map_some, String.ofList_toList]
  · next h =>
    rw [hread] at h
    cases h

theorem takeWhile_append {p : Char → Bool} {cs : List Char} (hcs : ∀ c ∈ cs, p c = true)
    (hrest : ∀ c ∈ rest.head?, p c = false) :
    (cs ++ rest).takeWhile p = cs ∧ (cs ++ rest).dropWhile p = rest := by
  induction cs with
  | nil =>
    cases rest with
    | nil => exact ⟨rfl, rfl⟩
    | cons c rest =>
      have hc := hrest c rfl
      simp [hc]
  | cons c cs ih =>
    obtain ⟨htake, hdrop⟩ := ih fun d hd => hcs d (List.mem_cons_of_mem _ hd)
    have hc := hcs c List.mem_cons_self
    simp [hc, htake, hdrop]

theorem isSpace_false_of {p : Char → Bool} (hp : ∀ c ∈ [' ', '\t', '\n', '\r', '"'], p c = false)
    {c : Char} (hc : p c = true) : isSpace c = false ∧ c ≠ '"' := by
  have hne : ∀ d ∈ [' ', '\t', '\n', '\r', '"'], c ≠ d := by
    rintro d hd rfl
    rw [hp c hd] at hc
    cases hc
  simp only [List.forall_mem_cons, List.not_mem_nil, false_imp_iff, implies_true, and_true] at hne
  obtain ⟨hblank, htab, hfeed, hreturn, hquote⟩ := hne
  exact ⟨by simp [isSpace, hblank, htab, hfeed, hreturn], hquote⟩

theorem scan?_number {cs : List Char} (hcs : Spelling cs) {v : Value} (hv : number? cs = some v)
    (hrest : ∀ c ∈ rest.head?, isNumberChar c = false) :
    scan? (cs ++ rest) = (scan? rest).map (scalar v :: ·) := by
  have hchars := hcs.isNumberChar
  obtain ⟨c, cs, rfl⟩ := List.exists_cons_of_ne_nil hcs.ne_nil
  have hc := hchars c List.mem_cons_self
  obtain ⟨hspace, hquote⟩ := isSpace_false_of (by simp [isNumberChar]) hc
  obtain ⟨htake, hdrop⟩ := takeWhile_append
    (fun d hd => hchars d (List.mem_cons_of_mem _ hd)) hrest
  rw [List.cons_append, scan?, hspace, if_neg Bool.false_ne_true, if_neg hquote, if_pos hc]
  split
  · next w h =>
    rw [htake, hv] at h
    obtain rfl := Option.some.inj h
    dsimp only
    rw [hdrop]
  · next h =>
    rw [htake, hv] at h
    cases h

theorem scan?_word {c : Char} {cs : List Char} {v : Value} (hv : word? (c :: cs) = some v)
    (hcs : (c :: cs).all isWordChar = true) (hnumber : isNumberChar c = false)
    (hrest : ∀ d ∈ rest.head?, isWordChar d = false) :
    scan? (c :: cs ++ rest) = (scan? rest).map (scalar v :: ·) := by
  obtain ⟨hc, hothers⟩ := List.forall_mem_cons.1 (List.all_eq_true.1 hcs)
  obtain ⟨hspace, hquote⟩ := isSpace_false_of (by simp [isWordChar]) hc
  obtain ⟨htake, hdrop⟩ := takeWhile_append hothers hrest
  rw [List.cons_append, scan?, hspace, if_neg Bool.false_ne_true, if_neg hquote, hnumber,
    if_neg Bool.false_ne_true, if_pos hc]
  split
  · next w h =>
    rw [htake, hv] at h
    obtain rfl := Option.some.inj h
    dsimp only
    rw [hdrop]
  · next h =>
    rw [htake, hv] at h
    cases h

theorem scan?_words (hrest : ∀ d ∈ rest.head?, isWordChar d = false) :
    scan? ("null".toList ++ rest) = (scan? rest).map (scalar .null :: ·) ∧
      ∀ b : Bool, scan? ((if b then "true" else "false").toList ++ rest) =
        (scan? rest).map (scalar (.bool b) :: ·) := by
  refine ⟨scan?_word rfl rfl rfl hrest, fun b => ?_⟩
  cases b with
  | true => exact scan?_word rfl rfl rfl hrest
  | false => exact scan?_word rfl rfl rfl hrest

theorem scan?_mark {c : Char} {t : Token} (hspace : isSpace c = false) (hquote : c ≠ '"')
    (hnumber : isNumberChar c = false) (hword : isWordChar c = false) (ht : mark? c = some t) :
    scan? (c :: rest) = (scan? rest).map (t :: ·) := by
  rw [scan?, hspace, if_neg Bool.false_ne_true, if_neg hquote, hnumber, if_neg Bool.false_ne_true,
    hword, if_neg Bool.false_ne_true, ht]

end Token

section
variable (number : Double → Option String)

/-- What a double is read as when it has been printed. -/
def rereadDouble (x : Double) : Value :=
  match number x with
  | some text => (Token.number? text.toList).getD .broken
  | none => .null

mutual

/-- What a value is read as when it has been printed. -/
def Value.reread : Value → Value
  | .broken => .null
  | .real x => rereadDouble number x
  | .array items => .array (rereadItems items)
  | .object members => .object (rereadMembers members)
  | v => v

def rereadItems : List Value → List Value
  | [] => []
  | v :: rest => v.reread :: rereadItems rest

def rereadMembers : List (String × Value) → List (String × Value)
  | [] => []
  | (key, v) :: rest => (key, v.reread) :: rereadMembers rest

end

mutual

def Value.tokens : Value → List Token
  | .text s => [.string (some s)]
  | .array [] => [.openArray, .closeArray]
  | .array (v :: rest) => .openArray :: (v.tokens ++ (tokensOfItems rest ++ [.closeArray]))
  | .object [] => [.openObject, .closeObject]
  | .object ((key, v) :: rest) =>
    .openObject :: .string (some key) :: .colon ::
      (v.tokens ++ (tokensOfMembers rest ++ [.closeObject]))
  | v => [.scalar (v.reread number)]

def tokensOfItems : List Value → List Token
  | [] => []
  | v :: rest => .comma :: (v.tokens ++ tokensOfItems rest)

def tokensOfMembers : List (String × Value) → List Token
  | [] => []
  | (key, v) :: rest => .comma :: .string (some key) :: .colon :: (v.tokens ++ tokensOfMembers rest)

end

end

mutual

/-- Values in so many brackets at most, whose integers fit in eight bytes. -/
def Value.Fits (room : Nat) : Value → Prop
  | .integer i => InWords i
  | .array items => 0 < room ∧ FitItems (room - 1) items
  | .object members => 0 < room ∧ FitMembers (room - 1) members
  | _ => True

def FitItems (room : Nat) : List Value → Prop
  | [] => True
  | v :: rest => v.Fits room ∧ FitItems room rest

def FitMembers (room : Nat) : List (String × Value) → Prop
  | [] => True
  | (_, v) :: rest => v.Fits room ∧ FitMembers room rest

end

namespace Token
variable {number : Double → Option String} {room : Nat} {rest : List Char}

/-- The rest of a text after a value: a number or a word does not go on. -/
def Ends (rest : List Char) : Prop :=
  ∀ c ∈ rest.head?, isNumberChar c = false ∧ isWordChar c = false

/-- A scalar is printed as one token. -/
theorem scan?_scalarText (hnumber : Spells number)
    {v : Value} (hv : v.Fits room)
    (hscalar : ∀ items members, v ≠ .array items ∧ v ≠ .object members) (hrest : Ends rest) :
    scan? ((scalarText number v).toList ++ rest) = (scan? rest).map (v.tokens number ++ ·) := by
  have hword : ∀ d ∈ rest.head?, isWordChar d = false := fun d hd => (hrest d hd).2
  have hdigit : ∀ d ∈ rest.head?, isNumberChar d = false := fun d hd => (hrest d hd).1
  obtain ⟨hnull, hbool⟩ := scan?_words hword
  cases v with
  | null => exact hnull
  | broken => exact hnull
  | bool b => exact hbool b
  | integer i => exact scan?_number (spelling_toString i) (number?_toString hv) hdigit
  | real x =>
    change scan? (((number x).getD "null").toList ++ rest) =
      (scan? rest).map (scalar (rereadDouble number x) :: ·)
    unfold rereadDouble
    cases hx : number x with
    | none => exact hnull
    | some text =>
      obtain ⟨w, hw⟩ := Option.isSome_iff_exists.1 (hnumber x text hx).isSome_number?
      dsimp only
      rw [hw]
      exact scan?_number (hnumber x text hx) hw hdigit
  | text s => exact scan?_quoted s
  | array items => exact absurd rfl (hscalar items []).1
  | object members => exact absurd rfl (hscalar [] members).2

theorem ends_newLine (level : Nat) (rest : List Char) : Ends ((newLine level).toList ++ rest) := by
  have hline : (newLine level).toList = '\n' :: List.replicate (2 * level) ' ' := by simp [newLine]
  rw [hline]
  intro c hc
  obtain rfl := Option.some.inj hc
  exact ⟨rfl, rfl⟩

theorem ends_cons {c : Char} (hnumber : isNumberChar c = false) (hword : isWordChar c = false)
    (rest : List Char) : Ends (c :: rest) := by
  intro d hd
  obtain rfl := Option.some.inj hd
  exact ⟨hnumber, hword⟩

theorem ends_prettyItems (level : Nat) (items : List Value) (hrest : Ends rest) :
    Ends ((prettyItems number level items).toList ++ rest) := by
  cases items with
  | nil => exact hrest
  | cons v items =>
    rw [prettyItems, String.append_assoc, String.append_assoc, String.toList_append]
    exact ends_cons rfl rfl _

theorem ends_prettyMembers (level : Nat) (members : List (String × Value)) (hrest : Ends rest) :
    Ends ((prettyMembers number level members).toList ++ rest) := by
  cases members with
  | nil => exact hrest
  | cons m members =>
    obtain ⟨key, v⟩ := m
    rw [prettyMembers, String.append_assoc, String.append_assoc, String.append_assoc,
      String.append_assoc, String.toList_append]
    exact ends_cons rfl rfl _

mutual

/-- A printed value is cut into its tokens. -/
theorem scan?_pretty (hnumber : Spells number) (v : Value) {room : Nat} (hv : v.Fits room)
    (level : Nat) {rest : List Char} (hrest : Ends rest) :
    scan? ((pretty number level v).toList ++ rest) = (scan? rest).map (v.tokens number ++ ·) := by
  -- Only lists and objects have parts; their text is taken apart token by token.
  cases v with
  | array items =>
    cases items with
    | nil =>
      have htext : (pretty number level (.array [])).toList ++ rest = '[' :: ']' :: rest := by
        rw [pretty]
        rfl
      rw [htext, scan?_mark rfl (by decide) rfl rfl rfl, scan?_mark rfl (by decide) rfl rfl rfl,
        Option.map_map]
      rfl
    | cons v items =>
      have htext : (pretty number level (.array (v :: items))).toList ++ rest =
          '[' :: ((newLine (level + 1)).toList ++ ((pretty number (level + 1) v).toList ++
            ((prettyItems number (level + 1) items).toList ++
              ((newLine level).toList ++ ']' :: rest)))) := by
        rw [pretty]
        simp [String.toList_append, List.append_assoc]
      rw [htext, scan?_mark rfl (by decide) rfl rfl rfl, scan?_newLine,
        scan?_pretty hnumber v hv.2.1 _ (ends_prettyItems _ _ (ends_newLine _ _)),
        scan?_prettyItems hnumber items hv.2.2 _ (ends_newLine _ _), scan?_newLine,
        scan?_mark rfl (by decide) rfl rfl rfl]
      simp [Option.map_map, Function.comp_def, Value.tokens]
  | object members =>
    cases members with
    | nil =>
      have htext : (pretty number level (.object [])).toList ++ rest = '\x7b' :: '\x7d' :: rest := by
        rw [pretty]
        rfl
      rw [htext, scan?_mark rfl (by decide) rfl rfl rfl, scan?_mark rfl (by decide) rfl rfl rfl,
        Option.map_map]
      rfl
    | cons m members =>
      obtain ⟨key, v⟩ := m
      have htext : (pretty number level (.object ((key, v) :: members))).toList ++ rest =
          '\x7b' :: ((newLine (level + 1)).toList ++ ((quoted key).toList ++ (':' :: ' ' ::
            ((pretty number (level + 1) v).toList ++
              ((prettyMembers number (level + 1) members).toList ++
                ((newLine level).toList ++ '\x7d' :: rest)))))) := by
        rw [pretty]
        simp [String.toList_append, List.append_assoc]
      rw [htext, scan?_mark rfl (by decide) rfl rfl rfl, scan?_newLine, scan?_quoted,
        scan?_mark rfl (by decide) rfl rfl rfl, scan?_space rfl,
        scan?_pretty hnumber v hv.2.1 _ (ends_prettyMembers _ _ (ends_newLine _ _)),
        scan?_prettyMembers hnumber members hv.2.2 _ (ends_newLine _ _), scan?_newLine,
        scan?_mark rfl (by decide) rfl rfl rfl]
      simp [Option.map_map, Function.comp_def, Value.tokens]
  | _ => exact scan?_scalarText hnumber hv (fun _ _ => ⟨nofun, nofun⟩) hrest

theorem scan?_prettyItems (hnumber : Spells number) (items : List Value) {room : Nat}
    (hitems : FitItems room items) (level : Nat) {rest : List Char} (hrest : Ends rest) :
    scan? ((prettyItems number level items).toList ++ rest) =
      (scan? rest).map (tokensOfItems number items ++ ·) := by
  cases items with
  | nil => simp [prettyItems, tokensOfItems]
  | cons v items =>
    have htext : (prettyItems number level (v :: items)).toList ++ rest =
        ',' :: ((newLine level).toList ++ ((pretty number level v).toList ++
          ((prettyItems number level items).toList ++ rest))) := by
      rw [prettyItems]
      simp [String.toList_append, List.append_assoc]
    rw [htext, scan?_mark rfl (by decide) rfl rfl rfl, scan?_newLine,
      scan?_pretty hnumber v hitems.1 _ (ends_prettyItems _ _ hrest),
      scan?_prettyItems hnumber items hitems.2 _ hrest]
    simp [Option.map_map, Function.comp_def, tokensOfItems]

theorem scan?_prettyMembers (hnumber : Spells number) (members : List (String × Value)) {room : Nat}
    (hmembers : FitMembers room members) (level : Nat) {rest : List Char} (hrest : Ends rest) :
    scan? ((prettyMembers number level members).toList ++ rest) =
      (scan? rest).map (tokensOfMembers number members ++ ·) := by
  cases members with
  | nil => simp [prettyMembers, tokensOfMembers]
  | cons m members =>
    obtain ⟨key, v⟩ := m
    have htext : (prettyMembers number level ((key, v) :: members)).toList ++ rest =
        ',' :: ((newLine level).toList ++ ((quoted key).toList ++ (':' :: ' ' ::
          ((pretty number level v).toList ++
            ((prettyMembers number level members).toList ++ rest))))) := by
      rw [prettyMembers]
      simp [String.toList_append, List.append_assoc]
    rw [htext, scan?_mark rfl (by decide) rfl rfl rfl, scan?_newLine, scan?_quoted,
      scan?_mark rfl (by decide) rfl rfl rfl, scan?_space rfl,
      scan?_pretty hnumber v hmembers.1 _ (ends_prettyMembers _ _ hrest),
      scan?_prettyMembers hnumber members hmembers.2 _ hrest]
    simp [Option.map_map, Function.comp_def, tokensOfMembers]

end

end Token

namespace Machine
variable {number : Double → Option String}

theorem foldlM_itemOrClose (v : Value) (stack : List Frame) :
    (v.tokens number).foldlM step ⟨stack, .itemOrClose, none⟩ =
      (v.tokens number).foldlM step ⟨stack, .value, none⟩ := by
  cases v with
  | array items => cases items <;> rfl
  | object members =>
    cases members with
    | nil => rfl
    | cons m members => rfl
  | _ => rfl

theorem members?_map (members : List (String × Value)) :
    members? (members.map fun m => (some m.1, m.2)) = some members := by
  induction members with
  | nil => rfl
  | cons m members ih =>
    rw [List.map_cons, members?, ih]
    rfl

mutual

/-- The machine puts a printed value together again. -/
theorem foldlM_tokens (v : Value) (stack : List Frame) (hv : v.Fits (depthLimit - stack.length)) :
    (v.tokens number).foldlM step ⟨stack, .value, none⟩ = some (put (v.reread number) stack) := by
  cases v with
  | array items =>
    -- A value that fits leaves room for its own level, so that closing it does not break it.
    have hroom : ¬depthLimit ≤ stack.length := by
      have := hv.1
      omega
    have hclose : ∀ items, close stack.length (.array items) = .array items.reverse := fun _ =>
      if_neg hroom
    cases items with
    | nil =>
      change some (put (close stack.length (.array [])) stack) = _
      rw [hclose]
      rfl
    | cons v items =>
      obtain ⟨hfirst, hothers⟩ := hv.2
      rw [Nat.sub_sub] at hfirst hothers
      change (v.tokens number ++ (tokensOfItems number items ++ [Token.closeArray])).foldlM step
        ⟨.array [] :: stack, .itemOrClose, none⟩ = _
      rw [List.foldlM_append, foldlM_itemOrClose, foldlM_tokens v (.array [] :: stack) hfirst,
        Option.bind_eq_bind, Option.bind_some]
      change (tokensOfItems number items ++ [Token.closeArray]).foldlM step
        ⟨.array [v.reread number] :: stack, .commaOrClose, none⟩ = _
      rw [List.foldlM_append, foldlM_tokensOfItems items _ stack hothers, Option.bind_eq_bind,
        Option.bind_some]
      change some (put (close stack.length (.array _)) stack) = _
      rw [hclose, List.reverse_append, List.reverse_reverse]
      rfl
  | object members =>
    have hroom : ¬depthLimit ≤ stack.length := by
      have := hv.1
      omega
    have hclose : ∀ (ms : List (String × Value)) key,
        close stack.length (.object (ms.map fun m => (some m.1, m.2)).reverse key) = .object ms := by
      intro ms key
      unfold close
      rw [if_neg hroom]
      dsimp only
      rw [List.reverse_reverse, members?_map]
    cases members with
    | nil =>
      change some (put (close stack.length (.object [] none)) stack) = _
      rw [show close stack.length (.object [] none) = .object [] from hclose [] none]
      rfl
    | cons m members =>
      obtain ⟨key, v⟩ := m
      obtain ⟨hfirst, hothers⟩ := hv.2
      rw [Nat.sub_sub] at hfirst hothers
      change (v.tokens number ++ (tokensOfMembers number members ++ [Token.closeObject])).foldlM step
        ⟨.object [] (some key) :: stack, .value, none⟩ = _
      rw [List.foldlM_append, foldlM_tokens v (.object [] (some key) :: stack) hfirst,
        Option.bind_eq_bind, Option.bind_some]
      change (tokensOfMembers number members ++ [Token.closeObject]).foldlM step
        ⟨.object [(some key, v.reread number)] none :: stack, .commaOrClose, none⟩ = _
      rw [List.foldlM_append, foldlM_tokensOfMembers members _ stack hothers, Option.bind_eq_bind,
        Option.bind_some]
      change some (put (close stack.length (.object _ none)) stack) = _
      have hall : ((rereadMembers number members).map fun m => (some m.1, m.2)).reverse ++
          [(some key, v.reread number)] =
          ((rereadMembers number ((key, v) :: members)).map fun m => (some m.1, m.2)).reverse := by
        rw [rereadMembers, List.map_cons, List.reverse_cons]
      rw [hall, hclose]
      rfl
  | _ => rfl

theorem foldlM_tokensOfItems (items read : List Value) (stack : List Frame)
    (hitems : FitItems (depthLimit - (stack.length + 1)) items) :
    (tokensOfItems number items).foldlM step ⟨.array read :: stack, .commaOrClose, none⟩ =
      some ⟨.array ((rereadItems number items).reverse ++ read) :: stack, .commaOrClose, none⟩ := by
  cases items with
  | nil => rfl
  | cons v items =>
    obtain ⟨hfirst, hothers⟩ := hitems
    change (v.tokens number ++ tokensOfItems number items).foldlM step
      ⟨.array read :: stack, .value, none⟩ = _
    rw [List.foldlM_append, foldlM_tokens v (.array read :: stack) hfirst, Option.bind_eq_bind,
      Option.bind_some]
    change (tokensOfItems number items).foldlM step
      ⟨.array (v.reread number :: read) :: stack, .commaOrClose, none⟩ = _
    rw [foldlM_tokensOfItems items _ stack hothers, rereadItems, List.reverse_cons,
      List.append_assoc]
    rfl

theorem foldlM_tokensOfMembers (members : List (String × Value))
    (read : List (Option String × Value)) (stack : List Frame)
    (hmembers : FitMembers (depthLimit - (stack.length + 1)) members) :
    (tokensOfMembers number members).foldlM step ⟨.object read none :: stack, .commaOrClose, none⟩ =
      some ⟨.object (((rereadMembers number members).map fun m => (some m.1, m.2)).reverse ++ read)
        none :: stack, .commaOrClose, none⟩ := by
  cases members with
  | nil => rfl
  | cons m members =>
    obtain ⟨key, v⟩ := m
    obtain ⟨hfirst, hothers⟩ := hmembers
    change (v.tokens number ++ tokensOfMembers number members).foldlM step
      ⟨.object read (some key) :: stack, .value, none⟩ = _
    rw [List.foldlM_append, foldlM_tokens v (.object read (some key) :: stack) hfirst,
      Option.bind_eq_bind, Option.bind_some]
    change (tokensOfMembers number members).foldlM step
      ⟨.object ((some key, v.reread number) :: read) none :: stack, .commaOrClose, none⟩ = _
    rw [foldlM_tokensOfMembers members _ stack hothers, rereadMembers, List.map_cons,
      List.reverse_cons, List.append_assoc]
    rfl

end

end Machine

theorem read?_pretty {number : Double → Option String} (hnumber : Spells number) {v : Value}
    (hv : v.Fits depthLimit) (level : Nat) :
    read? (pretty number level v) = some (v.reread number) := by
  have hend : Token.Ends [] := fun _ h => nomatch h
  have hscan := Token.scan?_pretty hnumber v hv level hend
  rw [List.append_nil, Token.scan?, Option.map_some, List.append_nil] at hscan
  unfold read?
  rw [hscan]
  change ((v.tokens number).foldlM Machine.step ⟨[], .value, none⟩).bind Machine.result = _
  rw [Machine.foldlM_tokens v [] hv]
  rfl

end MarkupScene.Json

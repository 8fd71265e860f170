import MarkupScene.Proofs.DiskGrowth

/-!
# Written files

A path opens a file when it leads to one or to a free name where one can be made. Writing then puts
a file there, through this path and every other that opens it. The main statements are that whatever
is written next opens as before and that files elsewhere read as before.
-/
namespace MarkupScene

namespace Text

/-- The last piece is empty after a separator only. -/
theorem getLast?_pieces {sep : Char} {cs : List Char} (h : (pieces sep cs).getLast? = some []) :
    cs = [] ∨ cs.getLast? = some sep := by
  induction cs with
  | nil => exact .inl rfl
  | cons c cs ih =>
    right
    obtain ⟨piece, rest, hrest⟩ := List.exists_cons_of_ne_nil (pieces_ne_nil sep cs)
    rw [pieces, hrest] at h
    rw [hrest] at ih
    cases cs with
    | nil =>
      obtain ⟨rfl, rfl⟩ := List.cons.inj hrest
      split at h
      · next hc => rw [hc]; rfl
      · cases h
    | cons d cs =>
      rw [List.getLast?_cons_cons]
      refine (ih ?_).resolve_left (List.cons_ne_nil d cs)
      split at h
      · exact h
      · cases rest with
        | nil => cases h
        | cons next rest => exact h

end Text

namespace Disk

open MarkupScene.Path

variable {d d' : Disk} {p q : Path} {l k : Location} {here : Location} {ps : List (List Char)}
  {content : ByteArray}

def foundContent? : Place → Option ByteArray
  | .found _ (.file content) => some content
  | _ => none

def content? (d : Disk) (l : Location) : Option ByteArray :=
  match d.entry? l with
  | some (.file content) => some content
  | _ => none

/-- A path to a file, or to a free name that is not asked to be a directory. -/
inductive Opens (d : Disk) (p : Path) (l : Location) : Prop where
  | file {old : ByteArray} : d.walk p = .ok (.found l (.file old)) → Opens d p l
  | free : d.walk p = .ok (.free l) → p.text.toList.getLast? ≠ some '/' → Opens d p l

theorem eq_ok_of_toOption {ε α : Type} {result : Except ε α} {a : α}
    (h : result.toOption = some a) : result = .ok a := by
  cases result with
  | ok b =>
    obtain rfl := Option.some.inj h
    rfl
  | error e => cases h

/-- Files are written where they can be opened. -/
theorem writeBytes_eq_ok_iff :
    d.writeBytes p content = .ok d' ↔ ∃ l, d.Opens p l ∧ d' = d.put l (.file content) := by
  constructor
  · intro h
    unfold writeBytes at h
    split at h
    · next hwalk => exact ⟨_, .file hwalk, (Except.ok.inj h).symm⟩
    · cases h
    · next hwalk =>
      split at h
      · cases h
      · next hslash => exact ⟨_, .free hwalk hslash, (Except.ok.inj h).symm⟩
    · cases h
  · rintro ⟨l, hopens, rfl⟩
    unfold writeBytes
    cases hopens with
    | file hwalk => rw [hwalk]
    | free hwalk hslash =>
      rw [hwalk]
      exact if_neg hslash

namespace Opens

theorem location (h : d.Opens p l) : l = p.locate d.working := by
  cases h with
  | file hwalk => exact location_of_walk hwalk
  | free hwalk _ => exact location_of_walk hwalk

theorem entry? (h : d.Opens p l) : d.entry? l ≠ some .directory := by
  intro hentry
  cases h with
  | file hwalk =>
    rw [(walks_of_walk hwalk).entry?_file] at hentry
    cases hentry
  | free hwalk _ =>
    rw [(walks_of_walk hwalk).entry?_free] at hentry
    cases hentry

theorem ne_nil (h : d.Opens p l) : l ≠ [] := by
  rintro rfl
  exact h.entry? rfl

theorem readBytes (h : d.Opens p l) : (d.readBytes p).toOption = d.content? l := by
  unfold Disk.readBytes content?
  cases h with
  | file hwalk =>
    rw [hwalk, (walks_of_walk hwalk).entry?_file]
    rfl
  | free hwalk _ =>
    rw [hwalk, (walks_of_walk hwalk).entry?_free]
    rfl

end Opens

theorem toOption_readBytes (d : Disk) (p : Path) :
    (d.readBytes p).toOption = (d.walk p).toOption.bind foundContent? := by
  unfold Disk.readBytes
  split <;> simp_all [Except.toOption, foundContent?]

theorem toOption_readText (d : Disk) (p : Path) :
    (d.readText p).toOption = (d.readBytes p).toOption.bind String.fromUTF8? := by
  unfold readText
  cases d.readBytes p with
  | error fault => rfl
  | ok content =>
    dsimp only
    split
    · next text htext => exact htext.symm
    · next hnone => exact hnone.symm

theorem fromUTF8?_toUTF8 (text : String) : String.fromUTF8? text.toUTF8 = some text :=
  dif_pos text.isValidUTF8

theorem Opens.readText {text : String} (h : d.Opens p l)
    (hcontent : d.content? l = some text.toUTF8) : d.readText p = .ok text := by
  refine eq_ok_of_toOption ?_
  rw [toOption_readText, h.readBytes, hcontent, Option.bind_some, fromUTF8?_toUTF8]

theorem toOption_readText_congr (h : (d'.readBytes q).toOption = (d.readBytes p).toOption) :
    (d'.readText q).toOption = (d.readText p).toOption := by
  rw [toOption_readText, toOption_readText, h]

theorem content?_put_self (hl : l ≠ []) : content? (d.put l (.file content)) l = some content := by
  unfold content?
  rw [entry?_put_self hl]

theorem content?_put_of_ne (h : k ≠ l) : content? (d.put l (.file content)) k = d.content? k := by
  unfold content?
  rw [entry?_put_of_ne d h]

/-- A walk that leads elsewhere ends as before. One that comes past the new file fails, as it did
before, when there was another file or nothing. -/
theorem walkFrom_put_elsewhere (hl : l ≠ []) (hold : d.entry? l ≠ some .directory)
    (hps : leads here ps ≠ l) :
    (walkFrom (d.put l (.file content)) here ps).toOption = (d.walkFrom here ps).toOption := by
  induction ps generalizing here with
  | nil => rfl
  | cons piece rest ih =>
    rw [walkFrom, walkFrom]
    split
    · next hsilent =>
      rw [leads_silent here hsilent] at hps
      exact ih hps
    · next hloud =>
      split
      · next hup =>
        subst hup
        exact ih hps
      · next hname =>
        rw [leads_name here hloud hname] at hps
        split
        · rfl
        · dsimp only
          generalize here ++ [String.ofList piece] = there at hps ⊢
          by_cases hthere : there = l
          · subst hthere
            have hrest : rest ≠ [] := fun h => hps (h ▸ rfl)
            have hall : ¬rest.all (·.isEmpty) = true := fun h => hps (leads_of_empty there h)
            rw [entry?_put_self hl]
            dsimp only
            rw [if_neg hrest]
            split
            · next hentry => exact absurd hentry hold
            · rw [if_neg hrest]
            · rw [if_neg hall]
              rfl
          · rw [entry?_put_of_ne d hthere]
            split
            · exact ih hps
            · rfl
            · rfl

/-- A walk to where a file is or can be made finds the new file. -/
theorem walks_put_self {place : Place} (h : Walks d here ps place)
    (hplace : place.entry? ≠ some .directory)
    (hlast : place.entry? = none → ps.getLast? ≠ some []) :
    Walks (d.put place.location (.file content)) here ps
      (.found place.location (.file content)) := by
  have hentry : d.entry? place.location ≠ some .directory := by
    rw [h.entry?.resolve_left hplace]
    exact hplace
  have hne : place.location ≠ [] := fun hnil => hentry (hnil ▸ rfl)
  have hbelow {piece : List Char} {rest : List (List Char)}
      (hlast : place.entry? = none → (piece :: rest).getLast? ≠ some []) :
      place.entry? = none → rest.getLast? ≠ some [] := fun hfree hrest =>
    hlast hfree (by rw [List.getLast?_cons, hrest]; rfl)
  -- The location is no directory, so the walk never goes through it before its end.
  induction h with
  | done here => exact absurd rfl hplace
  | silent hpiece _ ih => exact .silent hpiece (ih hplace (hbelow hlast) hentry hne hbelow)
  | up _ ih => exact .up (ih hplace (hbelow hlast) hentry hne hbelow)
  | enter hpiece hdirectory _ ih =>
    refine .enter hpiece ?_ (ih hplace (hbelow hlast) hentry hne hbelow)
    rw [entry?_put_of_ne d, hdirectory]
    intro heq
    exact hentry (heq ▸ hdirectory)
  | file hpiece _ hrest => exact .file hpiece (entry?_put_self hne d _) hrest
  | @free here piece rest hpiece _ hrest =>
    have hnil : rest = [] := by
      by_contra hnonempty
      refine hbelow hlast rfl ?_
      rw [List.getLast?_eq_some_getLast hnonempty]
      exact congrArg some (List.isEmpty_iff.1 (List.all_eq_true.1 hrest _ (List.getLast_mem _)))
    exact .file hpiece (entry?_put_self hne d _) hnil

theorem walk_put_elsewhere (hopens : d.Opens p l) (hq : q.locate d.working ≠ l) :
    (walk (d.put l (.file content)) q).toOption = (d.walk q).toOption := by
  rw [locate_eq] at hq
  unfold walk
  dsimp only
  split
  · rfl
  · split
    · rfl
    · split
      · rfl
      · exact walkFrom_put_elsewhere hopens.ne_nil hopens.entry? hq

theorem readBytes_put_elsewhere (hopens : d.Opens p l) (hq : q.locate d.working ≠ l) :
    (readBytes (d.put l (.file content)) q).toOption = (d.readBytes q).toOption := by
  rw [toOption_readBytes, toOption_readBytes, walk_put_elsewhere hopens hq]

theorem walk_put_self (h : d.Opens p l) :
    walk (d.put l (.file content)) p = .ok (.found l (.file content)) := by
  have htaken : Taken p := by
    cases h with
    | file hwalk => exact taken_of_walk hwalk
    | free hwalk _ => exact taken_of_walk hwalk
  rw [walk_of_taken htaken]
  refine Walks.walkFrom_eq ?_
  cases h with
  | file hwalk => exact walks_put_self (walks_of_walk hwalk) (by simp [Place.entry?]) nofun
  | free hwalk hslash =>
    refine walks_put_self (walks_of_walk hwalk) nofun fun _ hlast => ?_
    exact (Text.getLast?_pieces hlast).elim
      (fun hnil => htaken.nonempty (String.toList_eq_nil_iff.1 hnil)) hslash

theorem Opens.put (h : d.Opens p l) (hq : d.Opens q k) :
    Opens (d.put k (.file content)) p l := by
  by_cases hlk : l = k
  · subst hlk
    exact .file (walk_put_self h)
  · have hwalk : (walk (d.put k (.file content)) p).toOption = (d.walk p).toOption :=
      walk_put_elsewhere hq (h.location ▸ hlk)
    cases h with
    | file hold =>
      rw [hold] at hwalk
      exact .file (eq_ok_of_toOption hwalk)
    | free hold hslash =>
      rw [hold] at hwalk
      exact .free (eq_ok_of_toOption hwalk) hslash

end Disk

end MarkupScene

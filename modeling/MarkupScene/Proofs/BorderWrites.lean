import MarkupScene.Proofs.DiskFrames
import MarkupScene.Proofs.ValuePaths
import MarkupScene.Proofs.WrittenFiles

/-!
# Border writes

A border is merged into the companion of its texture. What stands at its place afterwards is the
border or, for a frame of a sheet, an entry that holds nothing besides. Everything else in the
companion is read again as before, where a double may be read as a neighbour. The main statement is
that, and that borders of different targets can be written in any order, after which both are there.
-/
namespace MarkupScene

open Json MarkupScene.Path Numeric Text

namespace DiskLocator
open Disk

variable {root : Path} {w w' : World} {asset other : AssetRef} {grid : Rect} {p q : Path}
  {l : Location} {d d' : Disk} {content : ByteArray}

def known (root : Path) (w : World) (path : String) : Option SpriteSheet :=
  (w.sheets.lookup path).getD (readSheet? w.disk (fullPath root path))

/-- The outside after the sheet of an asset with a frame was asked for. -/
def asked (root : Path) (asset : AssetRef) (w : World) : World :=
  match asset.frame with
  | none => w
  | some _ => (sheet root asset.path w).2

/-- The outside after questions about an asset and a write. -/
def after (root : Path) (asset : AssetRef) (l : Location) (content : ByteArray) (w : World) :
    World :=
  { asked root asset w with disk := w.disk.put l (.file content) }

/-- The companion that holds the border of an asset. -/
def companionOf (root : Path) (asset : AssetRef) (w : World) : Path :=
  companion root (borderOwner root asset w).1

/-- The border that a grid makes in the texture of an asset, or in its own extent when the size of
the texture is not known. -/
def borderOf (root : Path) (asset : AssetRef) (grid : Rect) (w : World) : Value :=
  borderValue (grid.insetsWithin ((textureSize root asset w).1.getD ⟨grid.right, grid.bottom⟩))

theorem sheet_of_remembered {path : String} {s : Option SpriteSheet}
    (h : w.sheets.lookup path = some s) : sheet root path w = (s, w) := by
  unfold sheet
  simp only [bind, StateT.bind, get, getThe, MonadStateOf.get, StateT.get, pure, h]
  rfl

theorem sheet_of_new {path : String} (h : w.sheets.lookup path = none) :
    sheet root path w = (readSheet? w.disk (fullPath root path),
      { w with sheets := (path, readSheet? w.disk (fullPath root path)) :: w.sheets }) := by
  unfold sheet
  simp only [bind, StateT.bind, get, getThe, MonadStateOf.get, StateT.get, pure, h]
  rfl

theorem sheet_fst (root : Path) (path : String) (w : World) :
    (sheet root path w).1 = known root w path := by
  unfold known
  cases hlookup : w.sheets.lookup path with
  | some s => rw [sheet_of_remembered hlookup, Option.getD_some]
  | none => rw [sheet_of_new hlookup, Option.getD_none]

theorem lookup_sheet (root : Path) (path key : String) (w : World) :
    (sheet root path w).2.sheets.lookup key =
      if key = path then some (known root w path) else w.sheets.lookup key := by
  unfold known
  cases hlookup : w.sheets.lookup path with
  | some s =>
    rw [sheet_of_remembered hlookup]
    split
    · next hkey => rw [hkey, hlookup, Option.getD_some]
    · rfl
  | none =>
    rw [sheet_of_new hlookup]
    exact Dictionary.lookup_entry _ _ _ _

theorem asked_disk (root : Path) (asset : AssetRef) (w : World) :
    (asked root asset w).disk = w.disk := by
  unfold asked
  split
  · rfl
  · exact (sheet_asks root asset.path w).1.disk

theorem lookup_asked (root : Path) (asset : AssetRef) (w : World) (key : String) :
    (asked root asset w).sheets.lookup key =
      if asset.frame.isSome ∧ key = asset.path then some (known root w key)
      else w.sheets.lookup key := by
  unfold asked
  cases asset.frame with
  | none => simp
  | some name =>
    rw [lookup_sheet]
    by_cases hkey : key = asset.path
    · simp [hkey]
    · simp [hkey]

theorem known_asked (root : Path) (asset : AssetRef) (w : World) (path : String) :
    known root (asked root asset w) path = known root w path := by
  have hknown : ∀ w : World,
      known root w path = (w.sheets.lookup path).getD (readSheet? w.disk (fullPath root path)) :=
    fun _ => rfl
  rw [hknown, lookup_asked, asked_disk]
  split <;> rfl

theorem asked_asked (root : Path) (asset : AssetRef) (w : World) :
    asked root asset (asked root asset w) = asked root asset w := by
  unfold asked
  cases asset.frame with
  | none => rfl
  | some name =>
    have hlookup := lookup_sheet root asset.path asset.path w
    rw [if_pos rfl] at hlookup
    change (sheet root asset.path (sheet root asset.path w).2).2 = (sheet root asset.path w).2
    rw [sheet_of_remembered hlookup]

theorem textureSize_snd (root : Path) (asset : AssetRef) (w : World) :
    (textureSize root asset w).2 = asked root asset w := by
  unfold textureSize asked
  cases asset.frame with
  | some name => rfl
  | none =>
    simp only [bind, StateT.bind, get, getThe, MonadStateOf.get, StateT.get, pure]
    cases w.disk.readBytes (fullPath root asset.path) <;> rfl

theorem borderOwner_snd (root : Path) (asset : AssetRef) (w : World) :
    (borderOwner root asset w).2 = asked root asset w := by
  unfold borderOwner asked
  cases asset.frame with
  | none => rfl
  | some name =>
    simp only [bind, StateT.bind]
    generalize sheet root asset.path w = answer
    rcases answer with ⟨_ | s, after⟩ <;> rfl

theorem textureSize_fst {name : String} (h : asset.frame = some name) :
    (textureSize root asset w).1 =
      ((known root w asset.path).bind fun s => s.frame? name).map SheetFrame.sourceSize := by
  rw [← sheet_fst]
  unfold textureSize
  rw [h]
  rfl

theorem borderOwner_fst {name : String} (h : asset.frame = some name) :
    (borderOwner root asset w).1 =
      ((known root w asset.path).map fun s => (sheetTexture asset.path s).text).getD
        asset.path := by
  rw [← sheet_fst]
  unfold borderOwner
  rw [h]
  simp only [bind, StateT.bind]
  generalize sheet root asset.path w = answer
  rcases answer with ⟨_ | s, after⟩ <;> rfl

/-- The size of a texture depends on its file and on what is known of its sheet. -/
theorem textureSize_congr
    (hfile : (w'.disk.readBytes (fullPath root asset.path)).toOption =
      (w.disk.readBytes (fullPath root asset.path)).toOption)
    (hknown : known root w' asset.path = known root w asset.path) :
    (textureSize root asset w').1 = (textureSize root asset w).1 := by
  cases hframe : asset.frame with
  | some name => rw [textureSize_fst hframe, textureSize_fst hframe, hknown]
  | none =>
    have hsize : ∀ w : World, (textureSize root asset w).1 =
        (w.disk.readBytes (fullPath root asset.path)).toOption.bind fun content =>
          (Picture.size? (fullPath root asset.path) content).map fun s =>
            ⟨.ofNat s.width, .ofNat s.height⟩ := by
      intro w
      unfold textureSize
      rw [hframe]
      simp only [bind, StateT.bind, get, getThe, MonadStateOf.get, StateT.get, pure]
      cases w.disk.readBytes (fullPath root asset.path) <;> rfl
    rw [hsize, hsize, hfile]

theorem borderOwner_congr (hknown : known root w' asset.path = known root w asset.path) :
    (borderOwner root asset w').1 = (borderOwner root asset w).1 := by
  cases hframe : asset.frame with
  | none =>
    unfold borderOwner
    rw [hframe]
    rfl
  | some name => rw [borderOwner_fst hframe, borderOwner_fst hframe, hknown]

def bordered (root : Path) (asset : AssetRef) (grid : Rect) (w : World) : Dictionary Value :=
  putBorder (companionMembers w.disk (companionOf root asset w)) asset.frame
    (borderOf root asset grid w)

def borderText (root : Path) (asset : AssetRef) (grid : Rect) (w : World) : String :=
  pretty dataNumber 0 (.object (bordered root asset grid w).entries)

theorem setBorder_eq (root : Path) (asset : AssetRef) (grid : Rect) (w : World) :
    setBorder root asset grid w =
      match w.disk.writeText (companionOf root asset w) (borderText root asset grid w) with
      | .ok disk => (.ok (), { asked root asset w with disk })
      | .error fault => (.error (.disk (companionOf root asset w) fault), asked root asset w) := by
  have howner : (borderOwner root asset (asked root asset w)).1 = (borderOwner root asset w).1 :=
    borderOwner_congr (known_asked root asset w asset.path)
  rw [setBorder_apply]
  dsimp only
  rw [textureSize_snd, borderOwner_snd, asked_asked, howner, asked_disk]
  rfl

def afterBorder (root : Path) (asset : AssetRef) (grid : Rect) (l : Location) (w : World) : World :=
  after root asset l (borderText root asset grid w).toUTF8 w

/-- A border is written when the companion can be opened. -/
theorem setBorder_eq_ok_iff :
    setBorder root asset grid w = (.ok (), w') ↔
      ∃ l, w.disk.Opens (companionOf root asset w) l ∧
        w' = afterBorder root asset grid l w := by
  rw [setBorder_eq]
  constructor
  · intro h
    split at h
    · next disk hwrite =>
      obtain ⟨l, hopens, rfl⟩ := writeBytes_eq_ok_iff.1 hwrite
      exact ⟨l, hopens, (Prod.mk.inj h).2.symm⟩
    · cases h
  · rintro ⟨l, hopens, rfl⟩
    have hwrite : w.disk.writeText (companionOf root asset w) (borderText root asset grid w) =
        .ok (w.disk.put l (.file (borderText root asset grid w).toUTF8)) :=
      writeBytes_eq_ok_iff.2 ⟨l, hopens, rfl⟩
    rw [hwrite]
    rfl

theorem readText_bordered (h : setBorder root asset grid w = (.ok (), w')) :
    w'.disk.readText (companionOf root asset w) = .ok (borderText root asset grid w) := by
  obtain ⟨l, hopens, rfl⟩ := setBorder_eq_ok_iff.1 h
  exact (hopens.put hopens).readText (content?_put_self hopens.ne_nil)

theorem ofSingle_settled (x : Single) : (Value.ofSingle x).Settled := by
  unfold Value.ofSingle
  split <;> rfl

theorem ofSingle_fits (x : Single) (room : Nat) : (Value.ofSingle x).Fits room := by
  unfold Value.ofSingle
  split <;> trivial

theorem borderValue_settled (i : Insets) : (borderValue i).Settled := by
  have hkeys : ["bottom", "left", "right", "top"].Pairwise (· < ·) := by decide
  let d : Dictionary Value := ⟨[("bottom", .ofSingle i.bottom), ("left", .ofSingle i.left),
    ("right", .ofSingle i.right), ("top", .ofSingle i.top)], List.pairwise_map.1 hkeys⟩
  have hsides : ∀ e ∈ d.entries, e.2.Settled := by simp [d, ofSingle_settled]
  exact Value.settled_object hsides

theorem borderValue_fits (i : Insets) (room : Nat) : (borderValue i).Fits (room + 1) :=
  ⟨Nat.succ_pos _, fitMembers_iff.2 (by simp [ofSingle_fits])⟩

theorem companionMembers_sound (d : Disk) (p : Path) :
    ∀ e ∈ (companionMembers d p).entries, e.2.Settled ∧ e.2.Fits (depthLimit - 1) := by
  unfold companionMembers
  split
  · next text _ =>
    split
    · next members hmembers =>
      obtain ⟨v, hread, hsettle⟩ := Option.bind_eq_some_iff.1 hmembers
      intro e he
      have hmember := Dictionary.mem_ofList he
      exact ⟨Value.settled_members (Value.settled_of_settle? hsettle) e hmember,
        Value.layered_fits.inside (Value.fits_of_settle? hsettle (read?_fits hread)) e hmember⟩
    · exact List.forall_mem_nil _
  · exact List.forall_mem_nil _

theorem bordered_settled (root : Path) (asset : AssetRef) (grid : Rect) (w : World) :
    (Value.object (bordered root asset grid w).entries).Settled :=
  Value.settled_object (putBorder_layered Value.layered_settled (n := 0)
    (fun e he => (companionMembers_sound _ _ e he).1) fun _ => borderValue_settled _)

theorem read?_borderText (root : Path) (asset : AssetRef) (grid : Rect) (w : World) :
    read? (borderText root asset grid w) =
      some ((Value.object (bordered root asset grid w).entries).reread dataNumber) := by
  refine read?_pretty spells_dataNumber ?_ 0
  have hfits : ∀ e ∈ (bordered root asset grid w).entries, e.2.Fits (123 + 3) :=
    putBorder_layered Value.layered_fits (fun e he => (companionMembers_sound _ _ e he).2)
      fun _ => borderValue_fits _ _
  exact Value.layered_fits.around hfits

/-- What a companion with some members reads as after a border was put in. At the place of the
border, if there is one, there is the border or an entry with the border alone, and what does not
lie on the way there or below it is there again. -/
structure Merged (members : Dictionary Value) (frame : Option String) (border new : Value) : Prop
    where
  placed : Takes members frame →
    new.at? (borderWay frame) = some ((borderEntry border frame).reread dataNumber)
  kept {way : List String} :
    (Takes members frame → ¬way <+: borderWay frame ∧ ¬borderWay frame <+: way) →
    new.at? way = ((Value.object members.entries).at? way).map (Value.reread dataNumber)

theorem merged_reread (root : Path) (asset : AssetRef) (grid : Rect) (w : World) :
    Merged (companionMembers w.disk (companionOf root asset w)) asset.frame
      (borderOf root asset grid w)
      ((Value.object (bordered root asset grid w).entries).reread dataNumber) where
  placed htakes := by
    rw [Value.at?_reread, bordered, at?_putBorder_self htakes]
    rfl
  kept hway := by
    rw [Value.at?_reread, bordered,
      at?_putBorder_of_apart (fun e he => (companionMembers_sound _ _ e he).1) hway]

theorem readSheet?_congr (h : (d'.readBytes p).toOption = (d.readBytes p).toOption) :
    readSheet? d' p = readSheet? d p := by
  have hsheet : ∀ d : Disk, readSheet? d p =
      (d.readText p).toOption.bind fun text => (read? text).bind SpriteSheet.decode? := by
    intro d
    unfold readSheet?
    cases d.readText p <;> rfl
  rw [hsheet, hsheet, toOption_readText_congr h]

theorem companionMembers_congr (h : (d'.readBytes q).toOption = (d.readBytes p).toOption) :
    companionMembers d' q = companionMembers d p := by
  have htext := toOption_readText_congr h
  unfold companionMembers
  cases hold : d.readText p with
  | ok text =>
    rw [hold] at htext
    rw [eq_ok_of_toOption htext]
  | error fault =>
    rw [hold] at htext
    cases hnew : d'.readText q with
    | ok text =>
      rw [hnew] at htext
      cases htext
    | error fault => rfl

section
variable (hopens : w.disk.Opens p l) (hfile : (fullPath root asset.path).locate w.disk.working ≠ l)
include hopens hfile

theorem known_after :
    known root (after root other l content w) asset.path = known root w asset.path := by
  have hsheet : readSheet? (w.disk.put l (.file content)) (fullPath root asset.path) =
      readSheet? w.disk (fullPath root asset.path) :=
    readSheet?_congr (readBytes_put_elsewhere hopens hfile)
  have hasked := known_asked root other w asset.path
  unfold known at hasked ⊢
  unfold after
  dsimp only
  rw [hsheet]
  rw [asked_disk] at hasked
  exact hasked

theorem companionOf_after :
    companionOf root asset (after root other l content w) = companionOf root asset w :=
  congrArg (companion root) (borderOwner_congr (known_after hopens hfile))

theorem borderOf_after :
    borderOf root asset grid (after root other l content w) = borderOf root asset grid w := by
  have hsize : (textureSize root asset (after root other l content w)).1 =
      (textureSize root asset w).1 :=
    textureSize_congr (readBytes_put_elsewhere hopens hfile) (known_after hopens hfile)
  unfold borderOf
  rw [hsize]

end

/-- Two borders with places of their own. The file of neither asset is the companion of the other.
When both go to one companion, they go to different places in it, and whatever is there reads as
itself when it has been printed. -/
structure Independent (root : Path) (a b : AssetRef) (gridA gridB : Rect) (w : World) : Prop where
  first : (fullPath root a.path).locate w.disk.working ≠
    (companionOf root b w).locate w.disk.working
  second : (fullPath root b.path).locate w.disk.working ≠
    (companionOf root a w).locate w.disk.working
  apart : (companionOf root a w).locate w.disk.working =
    (companionOf root b w).locate w.disk.working → a.frame ≠ b.frame
  steady : (companionOf root a w).locate w.disk.working =
    (companionOf root b w).locate w.disk.working →
      (∀ e ∈ (companionMembers w.disk (companionOf root a w)).entries, e.2.Steady dataNumber) ∧
        (borderOf root a gridA w).Steady dataNumber ∧ (borderOf root b gridB w).Steady dataNumber

section
variable {a b : AssetRef} {gridA gridB : Rect} {k : Location}

theorem bordered_steady
    (hmembers : ∀ e ∈ (companionMembers w.disk (companionOf root a w)).entries,
      e.2.Steady dataNumber)
    (hborder : (borderOf root a gridA w).Steady dataNumber) :
    (Value.object (bordered root a gridA w).entries).Steady dataNumber :=
  congrArg Value.object (Value.rereadMembers_eq_iff.2 (putBorder_layered
    (Value.layered_steady dataNumber) (n := 0) hmembers fun _ => hborder))

theorem companionMembers_written (hopens : d.Opens p l)
    (hcontent : d.content? l = some (borderText root a gridA w).toUTF8)
    (hsteady : (Value.object (bordered root a gridA w).entries).Steady dataNumber) :
    companionMembers d p = bordered root a gridA w := by
  unfold companionMembers
  rw [hopens.readText hcontent]
  dsimp only
  rw [read?_borderText, hsteady, Option.bind_some, bordered_settled]
  exact Dictionary.ofList_entries _

variable (h : Independent root a b gridA gridB w) (hA : w.disk.Opens (companionOf root a w) l)
include h hA

theorem companionOf_afterBorder :
    companionOf root b (afterBorder root a gridA l w) = companionOf root b w :=
  companionOf_after hA (hA.location ▸ h.second)

theorem lookup_after (path : String) :
    (afterBorder root b gridB k (afterBorder root a gridA l w)).sheets.lookup path =
      if b.frame.isSome ∧ path = b.path then some (known root w path)
      else if a.frame.isSome ∧ path = a.path then some (known root w path)
      else w.sheets.lookup path := by
  have hknown : known root (afterBorder root a gridA l w) b.path = known root w b.path :=
    known_after hA (hA.location ▸ h.second)
  change (asked root b (afterBorder root a gridA l w)).sheets.lookup path = _
  rw [lookup_asked]
  split
  · next hpath => rw [hpath.2, hknown]
  · exact lookup_asked root a w path

variable (hB : w.disk.Opens (companionOf root b w) k)
include hB

theorem Independent.symm : Independent root b a gridB gridA w where
  first := h.second
  second := h.first
  apart hsame := (h.apart hsame.symm).symm
  steady hsame := by
    obtain ⟨hmembers, hborderA, hborderB⟩ := h.steady hsame.symm
    obtain rfl : k = l := hB.location.trans (hsame.trans hA.location.symm)
    rw [companionMembers_congr (hB.readBytes.trans hA.readBytes.symm)]
    exact ⟨hmembers, hborderB, hborderA⟩

theorem companionMembers_after :
    companionMembers (afterBorder root a gridA l w).disk (companionOf root b w) =
      if k = l then bordered root a gridA w
      else companionMembers w.disk (companionOf root b w) := by
  split
  · next hkl =>
    subst hkl
    obtain ⟨hmembers, hborder, -⟩ := h.steady (hA.location.symm.trans hB.location)
    exact companionMembers_written (hB.put hA) (content?_put_self hA.ne_nil)
      (bordered_steady hmembers hborder)
  · next hkl => exact companionMembers_congr (readBytes_put_elsewhere hA (hB.location ▸ hkl))

theorem bordered_after : bordered root b gridB (afterBorder root a gridA l w) =
    putBorder (if k = l then bordered root a gridA w
      else companionMembers w.disk (companionOf root b w)) b.frame (borderOf root b gridB w) := by
  have hborder : borderOf root b gridB (afterBorder root a gridA l w) = borderOf root b gridB w :=
    borderOf_after hA (hA.location ▸ h.second)
  unfold bordered
  rw [companionOf_afterBorder h hA, companionMembers_after h hA hB, hborder]
  rfl

theorem setBorder_after : setBorder root b gridB (afterBorder root a gridA l w) =
    (.ok (), afterBorder root b gridB k (afterBorder root a gridA l w)) := by
  refine setBorder_eq_ok_iff.2 ⟨k, ?_, rfl⟩
  rw [companionOf_afterBorder h hA]
  exact hB.put hA

/-- The order of two borders makes no difference to any file. -/
theorem entry?_comm (x : Location) :
    (afterBorder root b gridB k (afterBorder root a gridA l w)).disk.entry? x =
      (afterBorder root a gridA l (afterBorder root b gridB k w)).disk.entry? x := by
  have hthen := bordered_after h hA hB
  have hbefore := bordered_after (h.symm hA hB) hB hA
  change entry? ((w.disk.put l _).put k (.file (borderText root b gridB _).toUTF8)) x =
    entry? ((w.disk.put k _).put l (.file (borderText root a gridA _).toUTF8)) x
  unfold borderText
  rw [hthen, hbefore]
  by_cases hkl : k = l
  · subst hkl
    rw [if_pos rfl, if_pos rfl]
    unfold bordered
    rw [companionMembers_congr (hB.readBytes.trans hA.readBytes.symm),
      putBorder_comm _ (h.apart (hA.location.symm.trans hB.location))]
    by_cases hx : x = k
    · rw [hx, entry?_put_self hA.ne_nil, entry?_put_self hA.ne_nil]
    · rw [entry?_put_of_ne _ hx, entry?_put_of_ne _ hx, entry?_put_of_ne _ hx,
        entry?_put_of_ne _ hx]
  · rw [if_neg hkl, if_neg (Ne.symm hkl)]
    by_cases hxk : x = k
    · subst hxk
      rw [entry?_put_self hB.ne_nil, entry?_put_of_ne _ hkl, entry?_put_self hB.ne_nil]
      rfl
    · rw [entry?_put_of_ne _ hxk]
      by_cases hxl : x = l
      · subst hxl
        rw [entry?_put_self hA.ne_nil, entry?_put_self hA.ne_nil]
        rfl
      · rw [entry?_put_of_ne _ hxl, entry?_put_of_ne _ hxl, entry?_put_of_ne _ hxk]

theorem lookup_comm (path : String) :
    (afterBorder root b gridB k (afterBorder root a gridA l w)).sheets.lookup path =
      (afterBorder root a gridA l (afterBorder root b gridB k w)).sheets.lookup path := by
  rw [lookup_after h hA, lookup_after (h.symm hA hB) hB]
  split
  · split <;> rfl
  · rfl

/-- Whether the companion of an asset, which is found where it was before, holds the border that a
grid made. -/
def Holds (root : Path) (asset : AssetRef) (grid : Rect) (w w' : World) : Prop :=
  ∃ text new, w'.disk.readText (companionOf root asset w) = .ok text ∧ read? text = some new ∧
    (Takes (companionMembers w.disk (companionOf root asset w)) asset.frame →
      new.at? (borderWay asset.frame) =
        some ((borderEntry (borderOf root asset grid w) asset.frame).reread dataNumber))

theorem holds_second :
    Holds root b gridB w (afterBorder root b gridB k (afterBorder root a gridA l w)) := by
  have hmerged := merged_reread root b gridB (afterBorder root a gridA l w)
  have hborder : borderOf root b gridB (afterBorder root a gridA l w) = borderOf root b gridB w :=
    borderOf_after hA (hA.location ▸ h.second)
  rw [companionOf_afterBorder h hA, companionMembers_after h hA hB, hborder] at hmerged
  refine ⟨_, _, ((hB.put hA).put (hB.put hA)).readText (content?_put_self hB.ne_nil),
    read?_borderText root b gridB _, fun htakes => hmerged.placed ?_⟩
  split
  · next hkl =>
    subst hkl
    rw [companionMembers_congr (hB.readBytes.trans hA.readBytes.symm)] at htakes
    exact takes_putBorder htakes
  · exact htakes

/-- The first border is still there. -/
theorem holds_first :
    Holds root a gridA w (afterBorder root b gridB k (afterBorder root a gridA l w)) := by
  have hopens : Opens (afterBorder root b gridB k (afterBorder root a gridA l w)).disk
      (companionOf root a w) l := (hA.put hA).put (hB.put hA)
  by_cases hkl : k = l
  · subst hkl
    have hmerged := merged_reread root b gridB (afterBorder root a gridA k w)
    rw [companionOf_afterBorder h hA, companionMembers_after h hA hB, if_pos rfl] at hmerged
    refine ⟨_, _, hopens.readText (content?_put_self hB.ne_nil), read?_borderText root b gridB _,
      fun htakes => ?_⟩
    rw [hmerged.kept fun _ => borderWay_apart (h.apart (hA.location.symm.trans hB.location)),
      bordered, at?_putBorder_self htakes]
    rfl
  · have hcontent : content? (afterBorder root b gridB k (afterBorder root a gridA l w)).disk l =
        some (borderText root a gridA w).toUTF8 :=
      (content?_put_of_ne (Ne.symm hkl)).trans (content?_put_self hA.ne_nil)
    exact ⟨_, _, hopens.readText hcontent, read?_borderText root a gridA w,
      (merged_reread root a gridA w).placed⟩

end

/-- A sheet with two frames of twenty by twenty. -/
def iconSheet : Value :=
  .object [("file", .text "icons.png"),
    ("frames", .object [("moon", .object [("h", .integer 20), ("w", .integer 20)]),
      ("star", .object [("h", .integer 20), ("w", .integer 20)])])]

/-- The companion of its texture, with an entry for one of them. -/
def iconMembers : List (String × Value) :=
  [("subMetas", .object [("star", .object [("uuid", .text "abc")])])]

def iconDisk : Disk where
  entries := [(["icons.json"], .file (pretty dataNumber 0 iconSheet).toUTF8),
    (["icons.png.meta"], .file (pretty dataNumber 0 (.object iconMembers)).toUTF8)]

/-- A grid with four points around it in either frame. -/
def middle : Rect := ⟨.ofNat 4, .ofNat 4, .ofNat 12, .ofNat 12⟩

def icon (name : String) : AssetRef := { path := "icons.json", frame := some name }

theorem read?_icons : read? (pretty dataNumber 0 iconSheet) = some iconSheet ∧
    read? (pretty dataNumber 0 (.object iconMembers)) = some (.object iconMembers) := by
  have hsheet : iconSheet.Fits depthLimit := by
    simp [iconSheet, Value.Fits, FitMembers, depthLimit, InWords]
  have hmembers : (Value.object iconMembers).Fits depthLimit := by
    simp [iconMembers, Value.Fits, FitMembers, depthLimit]
  exact ⟨read?_pretty spells_dataNumber hsheet 0, read?_pretty spells_dataNumber hmembers 0⟩

theorem opens_iconMembers : iconDisk.Opens ⟨"icons.png.meta"⟩ ["icons.png.meta"] := .file rfl

theorem readText_iconMembers :
    iconDisk.readText ⟨"icons.png.meta"⟩ = .ok (pretty dataNumber 0 (.object iconMembers)) :=
  opens_iconMembers.readText rfl

theorem companionMembers_icons :
    companionMembers iconDisk ⟨"icons.png.meta"⟩ = .ofList iconMembers := by
  unfold companionMembers
  rw [readText_iconMembers]
  dsimp only
  rw [read?_icons.2]
  rfl

theorem known_icons :
    known ⟨""⟩ { disk := iconDisk } "icons.json" = SpriteSheet.decode? iconSheet := by
  have hopens : iconDisk.Opens (fullPath ⟨""⟩ "icons.json") ["icons.json"] := .file rfl
  unfold known readSheet?
  rw [List.lookup_nil, Option.getD_none, hopens.readText rfl]
  dsimp only
  rw [read?_icons.1, Option.bind_some]

theorem companionOf_icon (name : String) :
    companionOf ⟨""⟩ (icon name) { disk := iconDisk } = ⟨"icons.png.meta"⟩ := by
  have hdecoded : (SpriteSheet.decode? iconSheet).map (·.file) = some "icons.png" := rfl
  obtain ⟨s, hs, hfile⟩ := Option.map_eq_some_iff.1 hdecoded
  have hknown : known ⟨""⟩ { disk := iconDisk } (icon name).path = some s := known_icons.trans hs
  have htexture : (sheetTexture "icons.json" s).text = "icons.png" := by
    unfold sheetTexture
    rw [hfile]
    decide
  unfold companionOf
  rw [borderOwner_fst rfl, hknown]
  change companion ⟨""⟩ (sheetTexture "icons.json" s).text = _
  rw [htexture]
  decide

theorem setBorder_icon (name : String) :
    ∃ w', setBorder ⟨""⟩ (icon name) middle { disk := iconDisk } = (.ok (), w') :=
  ⟨_, setBorder_eq_ok_iff.2 ⟨_, companionOf_icon name ▸ opens_iconMembers, rfl⟩⟩

theorem borderOf_icon {name : String} (h : name = "star" ∨ name = "moon") :
    borderOf ⟨""⟩ (icon name) middle { disk := iconDisk } =
      .object [("bottom", .real (.ofNat 4)), ("left", .real (.ofNat 4)),
        ("right", .real (.ofNat 4)), ("top", .real (.ofNat 4))] := by
  have hsize : (textureSize ⟨""⟩ (icon name) { disk := iconDisk }).1 =
      some ⟨.ofNat 20, .ofNat 20⟩ := by
    rw [textureSize_fst rfl]
    change ((known ⟨""⟩ { disk := iconDisk } "icons.json").bind _).map _ = _
    rw [known_icons]
    rcases h with rfl | rfl <;> decide
  have hinsets : middle.insetsWithin ⟨.ofNat 20, .ofNat 20⟩ =
      ⟨.ofNat 4, .ofNat 4, .ofNat 4, .ofNat 4⟩ := by decide +kernel
  have hfinite : (Floating.ofNat 4 : Single).isFinite = true := by decide +kernel
  have hconvert : (Floating.ofNat 4 : Single).convert = (.ofNat 4 : Double) := by decide +kernel
  unfold borderOf borderValue
  rw [hsize, Option.getD_some, hinsets]
  dsimp only
  rw [Value.ofSingle, if_pos hfinite, hconvert]

theorem steady_icon {name : String} (h : name = "star" ∨ name = "moon") :
    (borderOf ⟨""⟩ (icon name) middle { disk := iconDisk }).Steady dataNumber := by
  have htext : dataNumber (.ofNat 4) = some "4.0" := by decide +kernel
  have hparts : NumberText.ofChars? "4.0".toList = some ⟨false, ['4'], ['0'], 0, false⟩ := by
    decide +kernel
  have hvalue : (⟨false, ['4'], ['0'], 0, false⟩ : NumberText).toDouble? = some (.ofNat 4) := by
    decide +kernel
  have hdouble : rereadDouble dataNumber (.ofNat 4) = .real (.ofNat 4) := by
    unfold rereadDouble
    rw [htext]
    dsimp only
    rw [Token.number?, hparts, Option.map_some, Option.getD_some]
    unfold NumberText.value
    rw [hvalue]
    rfl
  rw [borderOf_icon h]
  unfold Value.Steady
  simp only [Value.reread, rereadMembers, hdouble]

theorem independent_icons :
    Independent ⟨""⟩ (icon "star") (icon "moon") middle middle { disk := iconDisk } where
  first := by
    rw [companionOf_icon]
    decide
  second := by
    rw [companionOf_icon]
    decide
  apart _ := by decide
  steady _ := by
    refine ⟨?_, steady_icon (.inl rfl), steady_icon (.inr rfl)⟩
    rw [companionOf_icon, companionMembers_icons]
    intro e he
    obtain rfl := List.mem_singleton.1 (Dictionary.mem_ofList he)
    rfl

/-- Border writes merge. A border that was written is in the companion of its texture, in place of
what was there, all else in the companion is there again, and no other file changes. Two borders
with places of their own that can be written can be written in both orders, with the same outcome,
and both are there. -/
theorem setBorder_merges (root : Path) (w : World) :
    (∀ asset grid w', setBorder root asset grid w = (.ok (), w') →
      Writes (· = (companionOf root asset w).locate w.disk.working) w.disk w'.disk ∧
        ∃ text new, w'.disk.readText (companionOf root asset w) = .ok text ∧
          read? text = some new ∧
          Merged (companionMembers w.disk (companionOf root asset w)) asset.frame
            (borderOf root asset grid w) new) ∧
    ∀ a b gridA gridB wa wb, Independent root a b gridA gridB w →
      setBorder root a gridA w = (.ok (), wa) → setBorder root b gridB w = (.ok (), wb) →
      ∃ wab wba, setBorder root b gridB wa = (.ok (), wab) ∧
        setBorder root a gridA wb = (.ok (), wba) ∧
        (∀ l, wab.disk.entry? l = wba.disk.entry? l) ∧
        (∀ path, wab.sheets.lookup path = wba.sheets.lookup path) ∧
        Holds root a gridA w wab ∧ Holds root b gridB w wab := by
  constructor
  · intro asset grid w' hset
    obtain ⟨l, hopens, rfl⟩ := setBorder_eq_ok_iff.1 hset
    have hwrite : w.disk.writeText (companionOf root asset w) (borderText root asset grid w) =
        .ok (afterBorder root asset grid l w).disk := writeBytes_eq_ok_iff.2 ⟨l, hopens, rfl⟩
    exact ⟨writeText_writes hwrite, _, _, readText_bordered hset,
      read?_borderText root asset grid w, merged_reread root asset grid w⟩
  · intro a b gridA gridB wa wb h hwa hwb
    obtain ⟨l, hA, rfl⟩ := setBorder_eq_ok_iff.1 hwa
    obtain ⟨k, hB, rfl⟩ := setBorder_eq_ok_iff.1 hwb
    exact ⟨_, _, setBorder_after h hA hB, setBorder_after (h.symm hA hB) hB hA,
      entry?_comm h hA hB, lookup_comm h hA hB, holds_first h hA hB, holds_second h hA hB⟩

/-- Both frames of the sheet, in both orders. -/
theorem icons_merge :
    let w : World := { disk := iconDisk }
    (∃ w' text new, setBorder ⟨""⟩ (icon "star") middle w = (.ok (), w') ∧
      w'.disk.readText ⟨"icons.png.meta"⟩ = .ok text ∧ read? text = some new ∧
      Merged (.ofList iconMembers) (some "star") (borderOf ⟨""⟩ (icon "star") middle w) new) ∧
    Independent ⟨""⟩ (icon "star") (icon "moon") middle middle w ∧
    ∃ wa wb wab wba, setBorder ⟨""⟩ (icon "star") middle w = (.ok (), wa) ∧
      setBorder ⟨""⟩ (icon "moon") middle w = (.ok (), wb) ∧
      setBorder ⟨""⟩ (icon "moon") middle wa = (.ok (), wab) ∧
      setBorder ⟨""⟩ (icon "star") middle wb = (.ok (), wba) ∧
      (∀ l, wab.disk.entry? l = wba.disk.entry? l) ∧
      Holds ⟨""⟩ (icon "star") middle w wab ∧ Holds ⟨""⟩ (icon "moon") middle w wab := by
  obtain ⟨wa, hstar⟩ := setBorder_icon "star"
  obtain ⟨wb, hmoon⟩ := setBorder_icon "moon"
  obtain ⟨hmerges, hcomm⟩ := setBorder_merges ⟨""⟩ { disk := iconDisk }
  obtain ⟨-, text, new, hread, hnew, hmerged⟩ := hmerges _ _ _ hstar
  rw [companionOf_icon] at hread hmerged
  rw [companionMembers_icons] at hmerged
  obtain ⟨wab, wba, hab, hba, hsame, -, hholds⟩ :=
    hcomm _ _ _ _ _ _ independent_icons hstar hmoon
  exact ⟨⟨wa, text, new, hstar, hread, hnew, hmerged⟩, independent_icons,
    wa, wb, wab, wba, hstar, hmoon, hab, hba, hsame, hholds⟩

/-- What the entry of a frame has held besides its border is lost. -/
theorem uuid_erased : ∃ w' text old new,
    setBorder ⟨""⟩ (icon "star") middle { disk := iconDisk } = (.ok (), w') ∧
      iconDisk.readText ⟨"icons.png.meta"⟩ = .ok (pretty dataNumber 0 (.object iconMembers)) ∧
      read? (pretty dataNumber 0 (.object iconMembers)) = some old ∧
      old.at? ["subMetas", "star", "uuid"] = some (.text "abc") ∧
      w'.disk.readText ⟨"icons.png.meta"⟩ = .ok text ∧ read? text = some new ∧
      new.at? ["subMetas", "star", "uuid"] = none := by
  obtain ⟨w', hset⟩ := setBorder_icon "star"
  have hread := readText_bordered hset
  have hmerged := merged_reread ⟨""⟩ (icon "star") middle { disk := iconDisk }
  rw [companionOf_icon] at hread
  rw [companionOf_icon, companionMembers_icons] at hmerged
  refine ⟨w', _, _, _, hset, readText_iconMembers, read?_icons.2, rfl, hread,
    read?_borderText ⟨""⟩ (icon "star") middle { disk := iconDisk }, ?_⟩
  have hentry := hmerged.placed fun _ => rfl
  change Value.at? _ (["subMetas", "star"] ++ ["uuid"]) = none
  rw [Value.at?_append]
  change (Value.at? _ (borderWay (icon "star").frame)).bind _ = none
  rw [hentry]
  rfl

end DiskLocator

end MarkupScene

import MarkupScene.Proofs.ClassicFonts
import MarkupScene.Proofs.FileRoles
import MarkupScene.Proofs.WrittenFiles

/-!
# Converted fonts

Importing converts a font in the JSON form into the classic form. The main statement compares the
metrics of both: they are the same for every legible face and texture, and for all others there is a
font whose size or line height gets lost on the way.
-/
namespace MarkupScene

namespace BitmapFont

open Json Numeric Text

/-- What a description says about the texture and the glyphs. -/
def parts? (v : Value) : Option (String × Dictionary GlyphFrame) := do
  let [file, frames] ← slots? ["file", "frames"] v | none
  return (← file.withDefault "" Value.text?,
    ← frames.withDefault .empty (Value.dictionary? GlyphFrame.decode?))

/-- The frames whose name has a character. -/
def namedFrames (frames : Dictionary GlyphFrame) : List GlyphFrame :=
  (frames.entries.filter fun entry => entry.1 ≠ "").map Prod.snd

/-- The greatest of some lengths, or zero when none is above it. -/
structure Greatest (n : Int) (lengths : List Int) : Prop where
  attained : n = 0 ∨ n ∈ lengths
  nonneg : 0 ≤ n
  bound : ∀ l ∈ lengths, l ≤ n

theorem decode?_eq_some_iff {v : Value} {face : String} {font : BitmapFont} :
    decode? face v = some font ↔ ∃ file frames, parts? v = some (file, frames) ∧
      font = frames.entries.foldl addFrame { face, file } := by
  have hmap : decode? face v =
      (parts? v).map fun p => p.2.entries.foldl addFrame { face, file := p.1 } := by
    unfold decode? parts?
    cases slots? ["file", "frames"] v with
    | none => rfl
    | some slots =>
      rcases slots with _ | ⟨file, _ | ⟨frames, _ | ⟨other, slots⟩⟩⟩
      · rfl
      · rfl
      · simp only [Option.bind_eq_bind, Option.bind_some]
        cases file.withDefault "" Value.text? with
        | none => rfl
        | some file =>
          cases frames.withDefault .empty (Value.dictionary? GlyphFrame.decode?) with
          | none => rfl
          | some frames => rfl
      · rfl
  rw [hmap, Option.map_eq_some_iff]
  constructor
  · rintro ⟨⟨file, frames⟩, hparts, hfont⟩
    exact ⟨file, frames, hparts, hfont.symm⟩
  · rintro ⟨file, frames, hparts, hfont⟩
    exact ⟨(file, frames), hparts, hfont.symm⟩

theorem greatest_foldl_max (lengths : List Int) : Greatest (lengths.foldl max 0) lengths := by
  have hfold : ∀ (lengths : List Int) (start : Int),
      (lengths.foldl max start = start ∨ lengths.foldl max start ∈ lengths) ∧
      start ≤ lengths.foldl max start ∧ ∀ l ∈ lengths, l ≤ lengths.foldl max start := by
    intro lengths
    induction lengths with
    | nil => simp
    | cons l lengths ih =>
      intro start
      obtain ⟨hattained, hstart, hbound⟩ := ih (max start l)
      rw [List.foldl_cons]
      refine ⟨?_, by omega, List.forall_mem_cons.2 ⟨by omega, hbound⟩⟩
      rcases hattained with hmax | hmem
      · rcases Int.le_total start l with hle | hle
        · rw [Int.max_eq_right hle] at hmax ⊢
          rw [hmax]
          exact .inr List.mem_cons_self
        · rw [Int.max_eq_left hle] at hmax ⊢
          exact .inl hmax
      · exact .inr (List.mem_cons_of_mem _ hmem)
  obtain ⟨hattained, hnonneg, hbound⟩ := hfold lengths 0
  exact ⟨hattained, hnonneg, hbound⟩

theorem foldl_addFrame (entries : List (String × GlyphFrame)) (font : BitmapFont) :
    (entries.foldl addFrame font).face = font.face ∧
    (entries.foldl addFrame font).file = font.file ∧
    (entries.foldl addFrame font).size =
      (((entries.filter fun entry => entry.1 ≠ "").map Prod.snd).map GlyphFrame.width).foldl max
        font.size ∧
    (entries.foldl addFrame font).lineHeight =
      (((entries.filter fun entry => entry.1 ≠ "").map Prod.snd).map GlyphFrame.height).foldl max
        font.lineHeight := by
  induction entries generalizing font with
  | nil => exact ⟨rfl, rfl, rfl, rfl⟩
  | cons entry entries ih =>
    obtain ⟨hface, hfile, hsize, hheight⟩ := ih (addFrame font entry)
    rw [List.foldl_cons, hface, hfile, hsize, hheight]
    unfold addFrame
    cases hname : entry.1.toList with
    | nil =>
      have hempty : entry.1 = "" := String.toList_eq_nil_iff.1 hname
      simp [hempty]
    | cons c cs =>
      have hsome : entry.1 ≠ "" := by
        intro hempty
        rw [hempty] at hname
        cases hname
      simp [hsome]

theorem number?_bound {v : Value} {n : Int} (h : GlyphFrame.number? v = some n) : n < 2 ^ 31 := by
  obtain ⟨word, -, rfl⟩ := Option.map_eq_some_iff.1 h
  exact Int32.toInt_lt word

theorem withDefault_bound {slot : Slot} {n : Int}
    (h : slot.withDefault 0 GlyphFrame.number? = some n) : n < 2 ^ 31 := by
  cases slot with
  | given v => exact number?_bound h
  | omitted | cutOff =>
    obtain rfl := Option.some.inj h
    decide

theorem frame_bound {v : Value} {g : GlyphFrame} (h : GlyphFrame.decode? v = some g) :
    g.width < 2 ^ 31 ∧ g.height < 2 ^ 31 := by
  obtain ⟨slots, -, h⟩ := Option.bind_eq_some_iff.1 h
  split at h
  · simp only [Option.bind_eq_bind, Option.bind_eq_some_iff, Option.pure_def] at h
    obtain ⟨x, -, y, -, width, hwidth, height, hheight, offsetX, -, offsetY, -, hframe⟩ := h
    obtain rfl := Option.some.inj hframe
    exact ⟨withDefault_bound hwidth, withDefault_bound hheight⟩
  · cases h

/-- Members of a decoded dictionary are decoded values. -/
theorem exists_of_dictionary? {α : Type} {d : Decoder α} {v : Value} {entries : Dictionary α}
    (h : Value.dictionary? d v = some entries) {entry : String × α} (hmem : entry ∈ entries.entries) :
    ∃ u, d u = some entry.2 := by
  have hlist : ∀ {members : List (String × Value)} {decoded : List (String × α)},
      (members.mapM fun m => (d m.2).map fun a => (m.1, a)) = some decoded →
      ∀ entry ∈ decoded, ∃ u, d u = some entry.2 := by
    intro members
    induction members with
    | nil =>
      intro decoded hdecoded
      obtain rfl := Option.some.inj hdecoded
      simp
    | cons m members ih =>
      intro decoded hdecoded
      simp only [List.mapM_cons, Option.bind_eq_bind, Option.bind_eq_some_iff, Option.pure_def,
        Option.map_eq_some_iff, Option.some.injEq] at hdecoded
      obtain ⟨_, ⟨a, ha, rfl⟩, rest, hrest, rfl⟩ := hdecoded
      exact List.forall_mem_cons.2 ⟨⟨m.2, ha⟩, ih hrest⟩
  cases v with
  | object members =>
    obtain ⟨decoded, hdecoded, hentries⟩ := Option.bind_eq_some_iff.1 h
    obtain rfl := Option.some.inj hentries
    exact hlist hdecoded entry (Dictionary.mem_ofList hmem)
  | _ => cases h

theorem frames_bound {v : Value} {file : String} {frames : Dictionary GlyphFrame}
    (h : parts? v = some (file, frames)) :
    ∀ g ∈ namedFrames frames, g.width < 2 ^ 31 ∧ g.height < 2 ^ 31 := by
  intro g hg
  obtain ⟨entry, hentry, rfl⟩ := List.mem_map.1 hg
  have hmem := (List.mem_filter.1 hentry).1
  obtain ⟨slots, -, h⟩ := Option.bind_eq_some_iff.1 h
  split at h
  · next fileSlot framesSlot =>
    simp only [Option.bind_eq_bind, Option.bind_eq_some_iff, Option.pure_def] at h
    obtain ⟨_, -, decoded, hdecoded, hpair⟩ := h
    obtain ⟨-, rfl⟩ := Prod.mk.inj (Option.some.inj hpair)
    cases framesSlot with
    | given u =>
      obtain ⟨w, hw⟩ := exists_of_dictionary? hdecoded hmem
      exact frame_bound hw
    | omitted | cutOff =>
      obtain rfl := Option.some.inj hdecoded
      cases hmem
  · cases h

theorem greatest_of_decode? {face : String} {v : Value} {font : BitmapFont}
    (h : decode? face v = some font) :
    font.face = face ∧ ∃ frames, parts? v = some (font.file, frames) ∧
      Greatest font.size ((namedFrames frames).map GlyphFrame.width) ∧
      Greatest font.lineHeight ((namedFrames frames).map GlyphFrame.height) := by
  obtain ⟨file, frames, hparts, rfl⟩ := decode?_eq_some_iff.1 h
  obtain ⟨hface, hfile, hsize, hheight⟩ := foldl_addFrame frames.entries { face, file }
  rw [hface, hfile, hsize, hheight]
  exact ⟨rfl, frames, hparts, greatest_foldl_max _, greatest_foldl_max _⟩

theorem measured_of_decode? {face : String} {v : Value} {font : BitmapFont}
    (h : decode? face v = some font) : font.Measured := by
  obtain ⟨-, frames, hparts, hsize, hheight⟩ := greatest_of_decode? h
  have hbound := frames_bound hparts
  have hfits : ∀ {n : Int} {length : GlyphFrame → Int},
      (∀ g ∈ namedFrames frames, length g < 2 ^ 31) →
      Greatest n ((namedFrames frames).map length) → 0 ≤ n ∧ n < 2 ^ 31 := by
    intro n length hlength hgreatest
    refine ⟨hgreatest.nonneg, ?_⟩
    rcases hgreatest.attained with rfl | hmem
    · decide
    · obtain ⟨g, hg, rfl⟩ := List.mem_map.1 hmem
      exact hlength g hg
  exact ⟨hfits (fun g hg => (hbound g hg).1) hsize, hfits (fun g hg => (hbound g hg).2) hheight⟩

theorem exists_decode? {face : String} {v : Value} {font : BitmapFont}
    (h : decode? face v = some font) (other : String) :
    ∃ same, decode? other v = some same ∧ same.metrics = font.metrics := by
  obtain ⟨file, frames, hparts, rfl⟩ := decode?_eq_some_iff.1 h
  refine ⟨_, decode?_eq_some_iff.2 ⟨file, frames, hparts, rfl⟩, ?_⟩
  obtain ⟨-, -, hsize, hheight⟩ := foldl_addFrame frames.entries { face, file }
  obtain ⟨-, -, hsize', hheight'⟩ := foldl_addFrame frames.entries { face := other, file }
  rw [metrics, metrics, hsize, hheight, hsize', hheight']

/-- A description with one frame. -/
def oneGlyphValue (file : String) (width height : Int) : Value :=
  .object [("file", .text file),
    ("frames", .object [("0", .object [("w", .integer width), ("h", .integer height)])])]

theorem decode?_oneGlyphValue (face file : String) {width height : Int}
    (hwidth : width = 0 ∨ width = 1) (hheight : height = 0 ∨ height = 1) :
    decode? face (oneGlyphValue file width height) = some (oneGlyph face file width height) := by
  rcases hwidth with rfl | rfl <;> rcases hheight with rfl | rfl <;> rfl

theorem read?_oneGlyphValue (file : String) {width height : Int}
    (hwidth : width = 0 ∨ width = 1) (hheight : height = 0 ∨ height = 1) :
    read? (pretty dataNumber 0 (oneGlyphValue file width height)) =
      some (oneGlyphValue file width height) := by
  have hfits : (oneGlyphValue file width height).Fits depthLimit := by
    rcases hwidth with rfl | rfl <;> rcases hheight with rfl | rfl <;>
      simp [oneGlyphValue, Value.Fits, FitMembers, depthLimit, InWords]
  exact read?_pretty spells_dataNumber hfits 0

/-- Whether a file with a text is loaded with some metrics, wherever it is. -/
def Loads (text : String) (metrics : FontMetrics) : Prop :=
  ∀ (root : Path) (asset : AssetRef) (w : World),
    w.disk.readText (DiskLocator.fullPath root asset.path) = .ok text →
      (DiskLocator.loadFont root asset).run w = (.ok metrics, w)

theorem run_loadFont {root : Path} {asset : AssetRef} {w : World} {text : String}
    (h : w.disk.readText (DiskLocator.fullPath root asset.path) = .ok text) :
    (DiskLocator.loadFont root asset).run w =
      (DiskLocator.fontMetrics (DiskLocator.fullPath root asset.path) text, w) := by
  simp only [DiskLocator.loadFont, StateT.run_bind, StateT.run_get, pure_bind, h, StateT.run_pure]
  rfl

theorem loads_of_classicMetrics? {text : String} {metrics : FontMetrics}
    (h : BitmapFont.classicMetrics? text = some metrics) : Loads text metrics := by
  intro root asset w htext
  rw [run_loadFont htext, DiskLocator.fontMetrics, h]

theorem loads_of_decode? {text : String} {v : Value} {face : String} {font : BitmapFont}
    (hread : read? text = some v) (hfont : decode? face v = some font) :
    Loads text font.metrics := by
  intro root asset w htext
  obtain ⟨same, hsame, hmetrics⟩ :=
    exists_decode? hfont ((DiskLocator.fullPath root asset.path).stem?.getD "")
  rw [run_loadFont htext, DiskLocator.fontMetrics, classicMetrics?_of_read? hread, hread,
    Option.bind_some, hsame]
  exact Prod.ext (congrArg Except.ok hmetrics) rfl

/-- A font file that is taken in is converted with its stem as the face. -/
theorem readText_of_takeFile {i after : Intake} {source place : Path} {text : String} {v : Value}
    {font : BitmapFont} (hextension : source.extension? = some "fnt")
    (htext : i.disk.readText source = .ok text) (hread : read? text = some v)
    (hfont : decode? (source.stem?.getD "") v = some font)
    (h : (Taking.takeFile source place).run i = (.ok (), after)) :
    after.disk.readText place = .ok font.classicText := by
  have hfound : Taking.font? i.disk source = some font := by
    rw [Taking.font?, htext]
    dsimp only
    rw [hread, Option.bind_some, hfont]
  have hplain : ¬Plain i.disk source := by
    intro hplain
    have hnone := hplain.font hextension
    rw [hfound] at hnone
    cases hnone
  have hjson : source.extension? ≠ some "json" := by
    rw [hextension]
    decide
  cases Taking.of_takeFile h with
  | converted _ hsame hwrite =>
    obtain rfl := Option.some.inj (hfound.symm.trans hsame)
    obtain ⟨l, hopens, rfl⟩ := Disk.writeBytes_eq_ok_iff.1 hwrite
    exact (hopens.put hopens).readText (Disk.content?_put_self hopens.ne_nil)
  | noted hnoted =>
    cases hnoted with
    | markup hmarkup =>
      rw [hextension] at hmarkup
      exact absurd hmarkup (by decide)
    | manifest h' => exact absurd h' hjson
    | theme h' => exact absurd h' hjson
    | animation h' => exact absurd h' hjson
  | undecoded hundecoded => exact absurd hundecoded.1 hjson
  | occupied hoccupied => exact absurd hoccupied hplain
  | copied hcopied => exact absurd hcopied hplain

/-- A font is described with the greatest lengths of its named frames as its metrics, and its
document is loaded with them. When the file of the document is taken in, it is converted under the
stem of its name. A converted font is read and loaded with the metrics of the font when its face and
its texture are legible; when they are not, there is a font with this face and this texture that is
read with other metrics. -/
theorem conversion_keeps_metrics {text : String} {v : Value} {face : String} {font : BitmapFont}
    (hread : read? text = some v) (hfont : decode? face v = some font) :
    (∃ frames, parts? v = some (font.file, frames) ∧
      font.metrics = { fontSize := .ofInt font.size, lineHeight := .ofInt font.lineHeight } ∧
      Greatest font.size ((namedFrames frames).map GlyphFrame.width) ∧
      Greatest font.lineHeight ((namedFrames frames).map GlyphFrame.height)) ∧
    Loads text font.metrics ∧
    (∀ (i after : Intake) (source place : Path), source.extension? = some "fnt" →
      source.stem?.getD "" = face → i.disk.readText source = .ok text →
      (Taking.takeFile source place).run i = (.ok (), after) →
        after.disk.readText place = .ok font.classicText) ∧
    (Legible face font.file →
      classicMetrics? font.classicText = some font.metrics ∧
        Loads font.classicText font.metrics) ∧
    (¬Legible face font.file → ∃ otherText other otherFont, read? otherText = some other ∧
      decode? face other = some otherFont ∧ otherFont.file = font.file ∧
        classicMetrics? otherFont.classicText ≠ some otherFont.metrics) := by
  obtain ⟨hface, frames, hparts, hsize, hheight⟩ := greatest_of_decode? hfont
  refine ⟨⟨frames, hparts, rfl, hsize, hheight⟩, loads_of_decode? hread hfont, ?_, ?_, ?_⟩
  · intro i after source place hextension hstem htext htaken
    exact readText_of_takeFile hextension htext hread (hstem ▸ hfont) htaken
  · intro hlegible
    have hmetrics := (hface.symm ▸ hlegible).classicMetrics? (measured_of_decode? hfont)
    exact ⟨hmetrics, loads_of_classicMetrics? hmetrics⟩
  · intro hillegible
    by_contra hall
    refine hillegible (legible_of_oneGlyph fun width height hwidth hheight => ?_)
    by_contra hother
    exact hall ⟨_, _, _, read?_oneGlyphValue font.file hwidth hheight,
      decode?_oneGlyphValue face font.file hwidth hheight, rfl, hother⟩

/-- Two digits on one texture. -/
def digitsValue : Value :=
  .object [("file", .text "num.png"),
    ("frames", .object [
      ("0", .object [("w", .integer 20), ("h", .integer 30)]),
      ("1", .object [("x", .integer 20), ("w", .integer 14), ("h", .integer 32)])])]

theorem read?_digitsValue : read? (pretty dataNumber 0 digitsValue) = some digitsValue := by
  have hfits : digitsValue.Fits depthLimit := by
    simp [digitsValue, Value.Fits, FitMembers, depthLimit, InWords]
  exact read?_pretty spells_dataNumber hfits 0

/-- The digits under a plain face. -/
theorem digits_keep_metrics :
    ∃ font, decode? "num" digitsValue = some font ∧ font.metrics = ⟨.ofNat 20, .ofNat 32⟩ ∧
      classicMetrics? font.classicText = some ⟨.ofNat 20, .ofNat 32⟩ ∧
      Loads (pretty dataNumber 0 digitsValue) ⟨.ofNat 20, .ofNat 32⟩ ∧
      Loads font.classicText ⟨.ofNat 20, .ofNat 32⟩ := by
  obtain ⟨font, hfont⟩ : ∃ font, decode? "num" digitsValue = some font := ⟨_, rfl⟩
  obtain ⟨-, hloads, -, hconverted, -⟩ := conversion_keeps_metrics read?_digitsValue hfont
  obtain rfl := Option.some.inj hfont
  obtain ⟨hmetrics, hagain⟩ := hconverted (legible_of_plain (by decide) (by decide) (by decide))
  exact ⟨_, rfl, rfl, hmetrics, hloads, hagain⟩

/-- The digits under a face that holds another size. -/
theorem sizedFace_misread :
    read? (pretty dataNumber 0 digitsValue) = some digitsValue ∧
    ∃ font, decode? "Arcade size=8" digitsValue = some font ∧
      font.metrics = ⟨.ofNat 20, .ofNat 32⟩ ∧
      classicMetrics? font.classicText = some ⟨.ofNat 8, .ofNat 32⟩ ∧
      classicMetrics? font.classicText ≠ some font.metrics := by
  obtain ⟨font, hfont⟩ : ∃ font, decode? "Arcade size=8" digitsValue = some font := ⟨_, rfl⟩
  have hmeasured := measured_of_decode? hfont
  have hsize : sizeTold "Arcade size=8" "num.png" 20 = some (some (.ofNat 8)) := by decide +kernel
  have hheight : heightTold "num.png" 32 = some (some (.ofNat 32)) := by decide +kernel
  have hother : (Floating.ofNat 8 : Single) ≠ .ofNat 20 := by decide +kernel
  have hread : classicMetrics? font.classicText = some ⟨.ofNat 8, .ofNat 32⟩ := by
    rw [classicMetrics?_eq, told_size hmeasured, told_lineHeight hmeasured]
    obtain rfl := Option.some.inj hfont
    change ((sizeTold "Arcade size=8" "num.png" 20).getD none).map
      (fun size => FontMetrics.mk size (((heightTold "num.png" 32).getD none).getD size)) = _
    rw [hsize, hheight]
    rfl
  have hmetrics : font.metrics = ⟨.ofNat 20, .ofNat 32⟩ := by
    obtain rfl := Option.some.inj hfont
    rfl
  refine ⟨read?_digitsValue, font, hfont, hmetrics, hread, ?_⟩
  rw [hread, hmetrics]
  exact fun hsame => hother (FontMetrics.mk.inj (Option.some.inj hsame)).1

end BitmapFont

end MarkupScene

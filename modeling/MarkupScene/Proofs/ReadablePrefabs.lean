import MarkupScene.Proofs.ModerateNodes
import MarkupScene.Proofs.RunFrames

/-!
# Readable prefabs

Where numbers are moderate nothing overflows: importers attach behaviors with finite numbers and
take moderate sizes from textures, parents and fonts, and so all numbers of all trees are finite. The
main statement is that a run whose documents and locator are moderate brings only prefabs to the
store that are read back from their encodings. Greater numbers are taken, too, and a width that no
single can hold makes a prefab that is not read back.
-/
namespace MarkupScene

open Numeric Floating

variable {ω : Type}

/-- A locator that reports moderate sizes of textures and fonts and finite lines. -/
structure Locator.Moderate (l : Locator ω) : Prop where
  textureSize (asset : AssetRef) (w : ω) : (l.textureSize asset w).1.all Size.isModerate = true
  loadFont {asset : AssetRef} {w : ω} {metrics : FontMetrics} :
    (l.loadFont asset w).1 = .ok metrics →
      metrics.fontSize.within moderatePower = true ∧ metrics.lineHeight.isFinite = true

namespace Node
variable {n m : Node} {b : Behavior} {f : Node → Node}

theorem Moderate.plain (name : String) : Node.Moderate { name } := by
  have hlayout : AllFinite [0, 1, 0, 0, 0, 1, 1] := by simp [zero_isFinite, one_isFinite]
  exact .node ⟨Size.isModerate_zero, hlayout, fun _ ha => nomatch ha⟩ fun _ hc => nomatch hc

theorem Moderate.resize (hn : n.Moderate) {size : Size} (hsize : size.isModerate = true) :
    Node.Moderate { n with size } :=
  .node ⟨hsize, hn.root.layout, hn.root.behaviors⟩ hn.children

theorem Moderate.mapSprite {f : Sprite → Sprite}
    (hf : ∀ s, (Behavior.sprite s).Moderate → (Behavior.sprite (f s)).Moderate) (hn : n.Moderate) :
    (n.mapSprite f).Moderate := by
  refine .node ⟨hn.root.size, hn.root.layout, fun a ha => ?_⟩ hn.children
  rcases mem_changeFirstSprite ha with ha | ⟨s, hs, rfl⟩
  · exact hn.root.behaviors a ha
  · exact hf s (hn.root.behaviors _ hs)

theorem Moderate.mapLabel {f : Label → Label}
    (hf : ∀ l, (Behavior.label l).Moderate → (Behavior.label (f l)).Moderate) (hn : n.Moderate) :
    (n.mapLabel f).Moderate := by
  refine .node ⟨hn.root.size, hn.root.layout, fun a ha => ?_⟩ hn.children
  rcases mem_changeFirstLabel ha with ha | ⟨l, hl, rfl⟩
  · exact hn.root.behaviors a ha
  · exact hf l (hn.root.behaviors _ hl)

theorem Moderate.attach (hn : n.Moderate) (hb : b.Moderate) (h : n.attach b = .ok m) :
    m.Moderate := by
  obtain ⟨bs, rfl, hmem, -⟩ := attach_ok h
  refine .node ⟨hn.root.size, hn.root.layout, fun a ha => ?_⟩ hn.children
  rcases hmem a ha with ha | rfl
  · exact hn.root.behaviors a ha
  · exact hb

theorem Moderate.modifyFound (hf : ∀ m, m.Moderate → (f m).Moderate) (hn : n.Moderate)
    (found : Option (List Nat))
    (hm : m = match found with
      | some way => n.modifyAt f way
      | none => n) : m.Moderate :=
  Every.modifyFound (fun _ h => h) hf hn found hm

theorem Moderate.putAside (hn : n.Moderate) (isTemplate : Bool) :
    Node.Moderate { n with children := Widget.putAside isTemplate n.children } :=
  Every.putAside (fun _ h => h) (fun _ h => ⟨h.size, h.layout, h.behaviors⟩) hn isTemplate

theorem moderate_of_findSome? {α : Type} {select : Behavior → Option α} {make : α → Behavior}
    (hselect : ∀ b a, select b = some a → b = make a) (hn : n.toBody.Moderate) {a : α}
    (ha : n.behaviors.findSome? select = some a) : (make a).Moderate := by
  obtain ⟨b, hb, hsome⟩ := List.exists_of_findSome?_eq_some ha
  exact hselect b a hsome ▸ hn.behaviors b hb

theorem sprite?_moderate (hn : n.toBody.Moderate) {s : Sprite} (hs : n.sprite? = some s) :
    (Behavior.sprite s).Moderate :=
  moderate_of_findSome? (fun b _ h => by cases b <;> cases h; rfl) hn hs

theorem label?_moderate (hn : n.toBody.Moderate) {l : Label} (hl : n.label? = some l) :
    (Behavior.label l).Moderate :=
  moderate_of_findSome? (fun b _ h => by cases b <;> cases h; rfl) hn hl

theorem editBox?_moderate (hn : n.toBody.Moderate) {e : EditBox} (he : n.editBox? = some e) :
    (Behavior.editBox e).Moderate :=
  moderate_of_findSome? (fun b _ h => by cases b <;> cases h; rfl) hn he

end Node

namespace Importing.Makes
variable {scope : ImportScope ω}

theorem ask {α : Type} {action : StateM ω α} {p : α → Prop} (h : ∀ w, p (action w).1) :
    Makes (ImportScope.ask action) p :=
  fun s => h s.world

theorem attach_moderate {n : Node} (hn : n.Moderate) {b : Behavior} (hb : b.Moderate) :
    Makes (scope.attach n b) Node.Moderate := by
  unfold ImportScope.attach
  split
  · next m hm => exact pure (hn.attach hb hm)
  · exact last fun _ => pure hn

end Importing.Makes

def Importer.KeepsModerate (i : Importer ω) : Prop :=
  ∀ scope e n, scope.locator.Moderate → e.isModerate = true → n.Moderate →
    (i scope e n).Makes Node.Moderate

namespace Widget

open Importing

theorem sourcedSprite_moderate (scope : ImportScope ω) (e : Element) {n : Node} (hn : n.Moderate) :
    Makes (sourcedSprite scope e n) fun s => (Behavior.sprite s).Moderate := by
  have hown : (Behavior.sprite (n.sprite?.getD {})).Moderate := by
    cases hs : n.sprite? with
    | none => exact .of_finite rfl allFinite_nil
    | some s => exact Node.sprite?_moderate hn.root hs
  unfold sourcedSprite
  split
  · exact .last fun _ => .pure (.of_finite rfl hown.finite)
  · exact .pure hown

theorem naturalSize_moderate {scope : ImportScope ω} (hlocator : scope.locator.Moderate)
    (sprite : Sprite) {own : Size} (hown : own.isModerate = true) :
    Makes (naturalSize scope sprite own) fun size => size.isModerate = true := by
  unfold naturalSize
  split
  · next asset _ =>
    refine .bind (q := fun size => size.all Size.isModerate = true)
      (.ask (hlocator.textureSize asset)) fun size hsize => .pure ?_
    cases size with
    | none => exact hown
    | some size => exact hsize
  · exact .pure hown

theorem image_keepsModerate : (image : Importer ω).KeepsModerate := by
  intro scope e n hlocator _ hn
  unfold image
  refine .bind (sourcedSprite_moderate scope e hn) fun sprite hsprite => ?_
  dsimp only
  have hattach : ∀ size : Size, size.isModerate = true → ∀ sizeMode kind,
      (scope.attach { n with size } (.sprite { sprite with sizeMode, kind })).Makes Node.Moderate :=
    fun size hsize _ _ => .attach_moderate (hn.resize hsize) (.of_finite rfl hsprite.finite)
  split
  · exact .bind (.pure hn.root.size) fun size hsize => .last fun _ => hattach size hsize _ _
  · exact .bind (naturalSize_moderate hlocator sprite hn.root.size) fun size hsize =>
      .last fun _ => hattach size hsize _ _

theorem fontSizeOf_within {e : Element} (he : e.isModerate = true) {own : Single}
    (hown : own.within moderatePower = true) :
    (fontSizeOf e own).within moderatePower = true := by
  unfold fontSizeOf
  split
  · exact e.singleOr_within he (by simp [Element.numberNames]) (by decide +kernel)
  · exact hown

theorem lineHeightOf_isFinite {e : Element} (he : e.isModerate = true) {fontSize own : Single}
    (hsize : fontSize.within moderatePower = true) (hown : own.isFinite = true) :
    (lineHeightOf e fontSize own).isFinite = true := by
  unfold lineHeightOf
  split
  · have hspacing : (e.singleOr "lineSpacing" 0).within moderatePower = true :=
      e.singleOr_within he (by simp [Element.numberNames]) (zero_within _)
    exact isFinite_of_within (add_within (by decide) hsize hspacing)
  · split
    · exact isFinite_of_within hsize
    · exact hown

theorem moderate_label_iff {l : Label} : (Behavior.label l).Moderate ↔
    l.fontSize.within moderatePower = true ∧ l.lineHeight.isFinite = true := by
  constructor
  · exact fun h => ⟨h.fontSize rfl, (allFinite_pair.1 h.finite).2⟩
  · rintro ⟨hsize, hline⟩
    refine ⟨allFinite_pair.2 ⟨isFinite_of_within hsize, hline⟩, ?_⟩
    rintro _ ⟨⟩
    exact hsize

theorem labelOf_moderate {e : Element} (he : e.isModerate = true) {n : Node} (hn : n.Moderate) :
    (Behavior.label (labelOf e n)).Moderate := by
  have hown : (Behavior.label (n.label?.getD plainLabel)).Moderate := by
    cases hl : n.label? with
    | none => exact moderate_label_iff.2 ⟨by decide +kernel, by decide +kernel⟩
    | some l => exact Node.label?_moderate hn.root hl
  obtain ⟨hownSize, hownLine⟩ := moderate_label_iff.1 hown
  have hsize := fontSizeOf_within he hownSize
  exact moderate_label_iff.2 ⟨hsize, lineHeightOf_isFinite he hsize hownLine⟩

theorem label_keepsModerate : (label : Importer ω).KeepsModerate :=
  fun _ _ _ _ he hn => .attach_moderate hn (labelOf_moderate he hn)

theorem withFont_moderate {scope : ImportScope ω} (hlocator : scope.locator.Moderate) {l : Label}
    (hl : (Behavior.label l).Moderate) (font : AssetRef) :
    Makes (withFont scope l font) fun l => (Behavior.label l).Moderate := by
  unfold withFont
  refine .bind (q := fun metrics => ∀ m, metrics = .ok m →
    m.fontSize.within moderatePower = true ∧ m.lineHeight.isFinite = true)
    (.ask fun w _ h => hlocator.loadFont h) fun metrics hmetrics => ?_
  cases metrics with
  | ok metrics => exact .pure (moderate_label_iff.2 (hmetrics _ rfl))
  | error _ =>
    obtain ⟨hsize, hline⟩ := moderate_label_iff.1 hl
    exact .pure (moderate_label_iff.2 ⟨hsize, hline⟩)

theorem bitmapLabel_keepsModerate : (bitmapLabel : Importer ω).KeepsModerate := by
  intro scope e n hlocator he hn
  have hlabel := labelOf_moderate he hn
  refine .last fun font => ?_
  cases font with
  | some font => exact .bind (withFont_moderate hlocator hlabel font) fun _ => .attach_moderate hn
  | none => exact .attach_moderate hn hlabel

theorem scrollBar_keepsModerate (direction : Axis) :
    (scrollBar direction : Importer ω).KeepsModerate := by
  intro scope e n _ _ hn
  have hstretch : ∀ m : Node, m.Moderate → (stretchSprite m).Moderate :=
    fun m hm => hm.mapSprite fun s hs => .of_finite rfl hs.finite
  exact .attach_moderate (hn.modifyFound hstretch (n.findNamed? "thumb") rfl)
    (.of_finite rfl allFinite_nil)

theorem fillSize_isModerate {outer inner : Size} (houter : outer.isModerate = true)
    (hinner : inner.isModerate = true) : (fillSize outer inner).isModerate = true := by
  rw [Size.isModerate_iff] at *
  unfold fillSize
  constructor
  · dsimp only
    split
    · exact houter.1
    · exact hinner.1
  · dsimp only
    split
    · exact houter.2
    · exact hinner.2

theorem scroller_keepsModerate : (scroller : Importer ω).KeepsModerate := by
  intro scope e n _ _ hn
  have hfill : ∀ m : Node, m.Moderate → Node.Moderate { m with size := fillSize n.size m.size } :=
    fun m hm => hm.resize (fillSize_isModerate hn.root.size hm.root.size)
  have hfilled := hn.modifyFound hfill (viewport? n) rfl
  exact .bind (.attach_moderate hfilled (.of_finite rfl allFinite_nil))
    fun _ hattached => .attach_moderate hattached (.of_finite rfl allFinite_nil)

theorem progressOf_isFinite {value maximum : Single} (hvalue : value.isFinite = true)
    (hmaximum : maximum.isFinite = true) : (progressOf value maximum).isFinite = true := by
  unfold progressOf
  split
  · next hpos =>
    have hnan : value ≠ nan := by
      rintro rfl
      cases hvalue
    exact clamp_isFinite (div_ne_nan (round_ne_nan hnan) hmaximum hpos)
  · exact zero_isFinite

theorem fillOf_isFinite (vertical reverse : Bool) {progress : Single}
    (h : progress.isFinite = true) : AllFinite (fillOf vertical reverse progress).singles := by
  cases reverse with
  | true => exact allFinite_pair.2 ⟨one_isFinite, isFinite_neg h⟩
  | false => exact allFinite_pair.2 ⟨zero_isFinite, h⟩

theorem lengthAlong_isFinite (vertical : Bool) {s : Size} (hs : s.isModerate = true) :
    (lengthAlong vertical s).isFinite = true := by
  obtain ⟨hwidth, hheight⟩ := Size.isModerate_iff.1 hs
  cases vertical with
  | true => exact isFinite_of_within hheight
  | false => exact isFinite_of_within hwidth

theorem progressBar_keepsModerate : (progressBar : Importer ω).KeepsModerate := by
  intro scope e n _ he hn
  have hvalue : (e.singleOr "value" 0).isFinite = true := isFinite_of_within
    (e.singleOr_within he (by simp [Element.numberNames]) (zero_within _))
  have hmaximum : (e.singleOr "maximum" 100).isFinite = true := isFinite_of_within
    (e.singleOr_within he (by simp [Element.numberNames]) (by decide +kernel))
  have hprogress := progressOf_isFinite hvalue hmaximum
  have hfill : ∀ vertical reverse (m : Node), m.Moderate →
      (fillSprite (fillOf vertical reverse
        (progressOf (e.singleOr "value" 0) (e.singleOr "maximum" 100))) m).Moderate :=
    fun vertical reverse m hm =>
      hm.mapSprite fun _ _ => .of_finite rfl (fillOf_isFinite vertical reverse hprogress)
  have htext : ∀ text (m : Node), m.Moderate →
      (m.mapLabel fun l => { l with text }).Moderate := by
    refine fun text m hm => hm.mapLabel fun l hl => ?_
    obtain ⟨hsize, hline⟩ := moderate_label_iff.1 hl
    exact moderate_label_iff.2 ⟨hsize, hline⟩
  have hfilled := fun vertical reverse =>
    hn.modifyFound (hfill vertical reverse) (n.findNamed? "thumb") rfl
  refine .attach_moderate ((hfilled _ _).modifyFound (htext _) _ rfl) (.of_finite rfl ?_)
  have hmeasured :
      (((n.findNamed? "thumb").bind n.descendant?).getD n).size.isModerate = true := by
    cases hthumb : (n.findNamed? "thumb").bind n.descendant? with
    | none => exact hn.root.size
    | some thumb =>
      obtain ⟨way, -, hway⟩ := Option.bind_eq_some_iff.1 hthumb
      exact (hn.descendant hway).size
  exact allFinite_pair.2 ⟨lengthAlong_isFinite _ hmeasured, hprogress⟩

theorem moderate_editBox_iff {edit : EditBox} : (Behavior.editBox edit).Moderate ↔
    edit.fontSize.isFinite = true ∧ edit.placeholderFontSize.isFinite = true :=
  ⟨fun h => allFinite_pair.1 h.finite, fun h => .of_finite rfl (allFinite_pair.2 h)⟩

theorem namedDescendant?_label {n : Node} (hn : n.Moderate) {name : String} {l : Label}
    (h : (namedDescendant? n name).bind (·.label?) = some l) : l.fontSize.isFinite = true := by
  obtain ⟨m, hm, hl⟩ := Option.bind_eq_some_iff.1 h
  obtain ⟨way, -, hway⟩ := Option.bind_eq_some_iff.1 hm
  exact isFinite_of_within (moderate_label_iff.1 (Node.label?_moderate (hn.descendant hway) hl)).1

section
variable {n : Node} {edit : EditBox}

theorem takePrompt_moderate (hn : n.Moderate) (hedit : (Behavior.editBox edit).Moderate) :
    (Behavior.editBox (takePrompt n edit)).Moderate := by
  rw [moderate_editBox_iff] at *
  unfold takePrompt
  split
  · next prompt h => exact ⟨hedit.1, namedDescendant?_label hn h⟩
  · exact hedit

theorem takeText_moderate (hn : n.Moderate) (hedit : (Behavior.editBox edit).Moderate) :
    (Behavior.editBox (takeText n edit)).Moderate := by
  rw [moderate_editBox_iff] at *
  unfold takeText
  split
  · next text h => exact ⟨namedDescendant?_label hn h, hedit.2⟩
  · exact hedit

theorem takeBackground_moderate (n : Node) (hedit : (Behavior.editBox edit).Moderate) :
    (Behavior.editBox (takeBackground n edit)).Moderate := by
  rw [moderate_editBox_iff] at *
  unfold takeBackground
  split
  · exact hedit
  · exact hedit

theorem editBoxOf_moderate (e : Element) (hn : n.Moderate) :
    (Behavior.editBox (editBoxOf e n)).Moderate := by
  have hown : (Behavior.editBox (n.editBox?.getD plainEditBox)).Moderate := by
    cases hedit : n.editBox? with
    | none => exact moderate_editBox_iff.2 ⟨by decide +kernel, by decide +kernel⟩
    | some edit => exact Node.editBox?_moderate hn.root hedit
  have htaken := takeBackground_moderate n (takeText_moderate hn (takePrompt_moderate hn hown))
  obtain ⟨hsize, hplaceholder⟩ := moderate_editBox_iff.1 htaken
  exact moderate_editBox_iff.2 ⟨hsize, hplaceholder⟩

end

theorem textInput_keepsModerate : (textInput : Importer ω).KeepsModerate :=
  fun scope e _ _ _ hn => .attach_moderate (hn.putAside scope.isTemplate) (editBoxOf_moderate e hn)

end Widget

theorem Registry.OnlyBuiltIn.keepsModerate {r : Registry ω} (hr : r.OnlyBuiltIn) {w : String}
    {i : Importer ω} (h : r.importer? w = some i) : i.KeepsModerate := by
  obtain ⟨entry, hentry, rfl⟩ := hr w i h
  exact builtIn_cases Widget.image_keepsModerate Widget.label_keepsModerate
    Widget.bitmapLabel_keepsModerate Widget.scrollBar_keepsModerate Widget.scroller_keepsModerate
    Widget.progressBar_keepsModerate Widget.textInput_keepsModerate
    (fun _ _ _ _ _ hn => .pure hn) hentry

namespace Setting
variable {setting : Setting ω}

/-- Trees that grow out of moderate elements in moderate parents are moderate. -/
theorem moderating (hregistry : setting.registry.OnlyBuiltIn)
    (hlocator : setting.locator.Moderate) :
    setting.GuardedInvariant
      (fun e parent => e.every Element.isModerate = true ∧ parent.all Size.isModerate = true)
      (fun _ => Node.Moderate) (fun _ => Node.Moderate) where
  mono_begun _ hn := hn
  mono_done _ hn := hn
  plain _ name := .plain name
  copy _ _ hroot := .node ⟨hroot.root.size, hroot.root.layout, hroot.root.behaviors⟩ hroot.children
  inner {j e k override parent fresh} he hfresh hk := by
    have hplaced := Placement.ofElement_moderate (Element.every_iff.1 he.1).1
    exact ⟨Element.every_candidates he.1 k (List.mem_of_mem_filter hk),
      Node.size_arrange_isModerate _ hplaced he.2 hfresh.root.size⟩
  grow {j begins source e override parent fresh made kids s t} he hfresh hkids himported := by
    have helement := (Element.every_iff.1 he.1).1
    have hplaced := Node.arrange_moderate setting.options.yAxis
      (Placement.ofElement_moderate helement) he.2 hfresh.root
    have hassembled : (setting.assembled e override parent fresh kids).Moderate := by
      refine .node ⟨hplaced.size, hplaced.layout, hplaced.behaviors⟩ fun c hc => ?_
      rcases List.mem_append.1 hc with hc | hc
      · exact hfresh.children c hc
      · exact (hkids c hc).1
    rcases importNode_cases himported with rfl | ⟨w, i, around, -, hi, rfl⟩
    · exact hassembled
    · exact hregistry.keepsModerate hi _ e _ hlocator helement hassembled around

/-- In a run whose documents hold moderate elements only, and whose locator reports moderate sizes,
the numbers of every node, constraint and behavior of every prefab that goes to the store are finite,
and the prefab is read back from its encoding. -/
theorem moderate_prefabs_read_back (hregistry : setting.registry.OnlyBuiltIn)
    (hlocator : setting.locator.Moderate) {world : ω} {paths : List Path}
    (hreads : setting.Reads (fun e => e.every Element.isModerate = true)
      (setting.runJournal world paths))
    {p : Prefab} {result : Except Failure PrefabRef}
    (hstored : .stored p result ∈ setting.runJournal world paths) :
    (p.root.Every fun n => ∀ x ∈ n.toBody.singles, x.isFinite = true) ∧
      Prefab.decode? p.encode = some p := by
  have hallowed : setting.Reads
      (fun e => e.every Element.isModerate = true ∧ (none : Option Size).all Size.isModerate = true)
      (setting.runJournal world paths) := fun _ _ _ _ hbegan he => ⟨hreads _ _ _ _ hbegan he, rfl⟩
  have hmoderate : p.root.Moderate :=
    ((moderating hregistry hlocator).founded world paths hallowed).of_mem (fun _ hn => hn) hstored
  have hfinite : p.root.Every fun n => AllFinite n.toBody.singles :=
    hmoderate.mono fun _ hn => hn.allFinite
  exact ⟨hfinite, p.decode?_eq_some_iff.2 (p.root.decode?_encode.2 hfinite)⟩

def halfPanelText : String :=
  "<e:Group width=\"100\" height=\"40\"><e:Image width=\"50%\" left=\"8\"/></e:Group>"

/-- A group with an image that takes half of it, away from the left edge. -/
def halfPanel : Setting Unit where
  sources := { read := fun _ _ => .ok halfPanelText }
  locator := .openLocator
  store := .memory

theorem openLocator_moderate : (Locator.openLocator : Locator ω).Moderate where
  textureSize _ _ := rfl
  loadFont h := nomatch h

theorem halfPanel_reads (j : Journal Unit) :
    halfPanel.Reads (fun e => e.every Element.isModerate = true) j := by
  have hmoderate : (Markup.readDocument halfPanelText).toOption.all
      (fun e => e.every Element.isModerate) = true := by decide +kernel
  intro below path before e _ he
  change (Markup.readDocument halfPanelText).mapError _ = .ok e at he
  cases hread : Markup.readDocument halfPanelText with
  | error fault =>
    rw [hread] at he
    cases he
  | ok root =>
    rw [hread] at he hmoderate
    obtain rfl := Except.ok.inj he
    exact hmoderate

theorem halfPanel_read_back :
    halfPanel.registry.OnlyBuiltIn ∧ halfPanel.locator.Moderate ∧
      halfPanel.Reads (fun e => e.every Element.isModerate = true)
        (halfPanel.runJournal () [⟨"main.exml"⟩]) ∧
      ∃ p handle, .stored p (.ok handle) ∈ halfPanel.runJournal () [⟨"main.exml"⟩] ∧
        p.root.size.width = 100 ∧
          (p.root.Every fun n => ∀ x ∈ n.toBody.singles, x.isFinite = true) ∧
            Prefab.decode? p.encode = some p := by
  have hwidths : ((halfPanel.runJournal () [⟨"main.exml"⟩]).accepted.map fun c =>
      c.1.root.size.width)[0]? = some 100 := by decide +kernel
  rw [List.getElem?_map] at hwidths
  obtain ⟨⟨p, handle⟩, hfirst, hwidth⟩ := Option.map_eq_some_iff.1 hwidths
  have hstored := Journal.mem_accepted.1 (List.mem_of_getElem? hfirst)
  exact ⟨Registry.builtIn_onlyBuiltIn, openLocator_moderate, halfPanel_reads _, p, handle, hstored,
    hwidth, moderate_prefabs_read_back Registry.builtIn_onlyBuiltIn openLocator_moderate
      (halfPanel_reads _) hstored⟩

end Setting

theorem Size.decode?_eq_none {s : Size} (h : s.width.isFinite = false) :
    decode? s.encode = none := by
  cases s
  rw [decode?, encode, Json.slots?_object]
  · simp [Json.Slot.required, Json.Value.single?_ofSingle, h]
  · rfl
  · decide

theorem Node.decode?_eq_none {n : Node} (h : n.size.width.isFinite = false) :
    decode? n.encode = none := by
  rw [decode?_eq n.slots?_encode rfl]
  simp [decodeBody?, Json.Slot.required, Size.decode?_eq_none h]

namespace Setting

/-- A group with a width that is greater than every single. -/
def endlessPanel : Setting Unit where
  sources := { read := fun _ _ => .ok "<e:Group width=\"1e39\"/>" }
  locator := .openLocator
  store := .memory

/-- The width is taken as infinite, and the prefab cannot be decoded. -/
theorem endlessPanel_unreadable :
    endlessPanel.registry.OnlyBuiltIn ∧ endlessPanel.locator.Moderate ∧
      ∃ p handle, .stored p (.ok handle) ∈ endlessPanel.runJournal () [⟨"main.exml"⟩] ∧
        p.root.size.width.isFinite = false ∧ Prefab.decode? p.encode = none := by
  have hwidths : ((endlessPanel.runJournal () [⟨"main.exml"⟩]).accepted.map fun c =>
      c.1.root.size.width.isFinite)[0]? = some false := by decide +kernel
  rw [List.getElem?_map] at hwidths
  obtain ⟨⟨p, handle⟩, hfirst, hwidth⟩ := Option.map_eq_some_iff.1 hwidths
  refine ⟨Registry.builtIn_onlyBuiltIn, openLocator_moderate, p, handle,
    Journal.mem_accepted.1 (List.mem_of_getElem? hfirst), hwidth, ?_⟩
  rw [p.decode?_encode, Node.decode?_eq_none hwidth]
  rfl

end Setting

end MarkupScene

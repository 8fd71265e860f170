import MarkupScene.Proofs.ClosedReferences
import MarkupScene.Proofs.Viewports

/-!
# Percentages

A side that is given as a share of the parent's is computed once, when the node is laid out, from the
side that the parent has at that time. Two things come later and do not compute it anew. A copy of
a skin gets the size that its use asks for, and its copied children keep the sides that they had in
the skin. And a scroller stretches the zero sides of its viewport. The main statement is that nothing
else stands between a share and the finished tree.
-/
namespace MarkupScene

open Numeric

variable {ω : Type}

namespace Node

/-- How the side of a child that was given as a share came about. -/
inductive Measured (j : Journal ω) (root : Node) (way : List Nat) (i : Nat) (axis : Axis)
    (f : Single) (parent child : Node) : Prop where
  /-- It is the share of the side that the parent was laid out with. -/
  | byParent {side : Single} (parent : Became j axis root way side (parent.size.along axis))
      (child : Became j axis root (way ++ [i]) (f * side) (child.size.along axis))
  /-- The parent is a copy of a root that was stored before, and so is the child of a child with this
  share. -/
  | bySkin {q : Prefab} {handle : PrefabRef} {d : Node} (skin : parent.skin = some handle)
      (stored : .stored q (.ok handle) ∈ j) (copied : q.root.children[i]? = some d)
      (fraction : d.fraction? axis = some f)
      (child : Became j axis root (way ++ [i]) (d.size.along axis) (child.size.along axis))

/-- All shares in a tree are accounted for. -/
def Fits (j : Journal ω) (root : Node) : Prop :=
  ∀ way i axis f parent child, root.descendant? way = some parent →
    parent.children[i]? = some child → child.fraction? axis = some f →
      Measured j root way i axis f parent child

/-- All shares are accounted for whatever becomes of the root itself, as long as it stays the copy and
the scroll view that it is. -/
def Loose (j : Journal ω) (root : Node) : Prop :=
  ∀ n : Node, n.children = root.children → n.skin = root.skin →
    root.behaviors.map Behavior.kind ⊆ n.behaviors.map Behavior.kind → Fits j n

variable {j k : Journal ω} {n m : Node} {way : List Nat} {i : Nat} {axis : Axis} {f : Single}
  {parent parent' child child' : Node}

theorem Became.mono_journal (h : j ⊆ k) {a b : Single} (hab : Became j axis n way a b) :
    Became k axis n way a b := by
  induction hab with
  | kept => exact .kept _ _ _
  | trans _ _ ihab ihbc => exact .trans ihab ihbc
  | stretched split scroller scrolls isZero _ ih => exact .stretched split scroller scrolls isZero ih
  | inSkin view split copy skin stored _ ih => exact .inSkin view split copy skin (h stored) ih

theorem Measured.mono_journal (h : j ⊆ k) (hm : Measured j n way i axis f parent child) :
    Measured k n way i axis f parent child := by
  cases hm with
  | byParent hparent hchild => exact .byParent (hparent.mono_journal h) (hchild.mono_journal h)
  | bySkin hskin hstored hcopied hfraction hchild =>
    exact .bySkin hskin (h hstored) hcopied hfraction (hchild.mono_journal h)

theorem Fits.mono_journal (h : j ⊆ k) (hn : n.Fits j) : n.Fits k :=
  fun _ _ _ _ _ _ hparent hchild hf => (hn _ _ _ _ _ _ hparent hchild hf).mono_journal h

/-- An account holds of a tree that the tree becomes, or becomes a part of. -/
theorem Measured.become {above : List Nat} (hm : Measured j n way i axis f parent child)
    (h : ∀ {way a b}, Became j axis n way a b → Became j axis m (above ++ way) a b)
    (hskin : parent'.skin = parent.skin)
    (hparent : Became j axis m (above ++ way) (parent.size.along axis) (parent'.size.along axis))
    (hchild : Became j axis m (above ++ way ++ [i]) (child.size.along axis)
      (child'.size.along axis)) :
    Measured j m (above ++ way) i axis f parent' child' := by
  rw [List.append_assoc] at hchild
  cases hm with
  | byParent hp hc =>
    refine .byParent ((h hp).trans hparent) ?_
    rw [List.append_assoc]
    exact (h hc).trans hchild
  | bySkin hs hstored hcopied hfraction hc =>
    refine .bySkin (hskin.trans hs) hstored hcopied hfraction ?_
    rw [List.append_assoc]
    exact (h hc).trans hchild

theorem Measured.embed {above : List Nat} (hm : Measured j n way i axis f parent child)
    (h : ∀ {way a b}, Became j axis n way a b → Became j axis m (above ++ way) a b) :
    Measured j m (above ++ way) i axis f parent child :=
  hm.become h rfl (.kept _ _ _) (.kept _ _ _)

theorem Fits.settle (hn : n.Fits j) (h : n.Settles j m) : m.Fits j := by
  intro way i axis f parent' child' hparent' hchild' hf
  obtain ⟨parent, hparent, -⟩ := exists_descendant? h.outline.symm hparent'
  have hbelow' : m.descendant? (way ++ [i]) = some child' :=
    (descendant?_child hparent').trans hchild'
  obtain ⟨child, hbelow, -⟩ := exists_descendant? h.outline.symm hbelow'
  have hkept := h.kept hparent hparent'
  have hkeptChild := h.kept hbelow hbelow'
  rw [descendant?_child hparent] at hbelow
  have hmeasured := hn way i axis f parent child hparent hbelow
    ((hkeptChild.fraction axis).symm.trans hf)
  exact hmeasured.become h.embeds.became hkept.skin (hkept.side axis) (hkeptChild.side axis)

/-- Children that take their shares of the root can be added at the end. -/
theorem Fits.append (hn : n.Fits j) {kids : List Node} (hchildren : m.children = n.children ++ kids)
    (hbody : m.toBody = n.toBody)
    (hkids : ∀ c ∈ kids, c.Fits j ∧
      ∀ axis f, c.fraction? axis = some f → c.size.along axis = f * m.size.along axis) :
    m.Fits j := by
  have hembeds : Embeds j [] n m := by
    apply Embeds.append hchildren
    rw [hbody]
    exact .refl _ _ _ _
  have hchild? : ∀ {i : Nat} {c : Node}, m.children[i]? = some c →
      n.children[i]? = some c ∨ c ∈ kids := by
    intro i c hc
    rw [hchildren] at hc
    by_cases hi : i < n.children.length
    · rw [List.getElem?_append_left hi] at hc
      exact .inl hc
    · rw [List.getElem?_append_right (by omega)] at hc
      exact .inr (List.mem_of_getElem? hc)
  -- A way leads to an old child, to a new one, or into one of them.
  intro way i axis f parent child hparent hchild hf
  cases way with
  | nil =>
    obtain rfl := Option.some.inj hparent
    rcases hchild? hchild with hold | hnew
    · have hmeasured := hn [] i axis f n child rfl hold hf
      refine hmeasured.become hembeds.became (by rw [hbody]) ?_ (.kept _ _ _)
      rw [hbody]
      exact .kept _ _ _
    · refine .byParent (.kept _ _ _) ?_
      rw [(hkids child hnew).2 axis f hf]
      exact .kept _ _ _
  | cons k way =>
    rw [descendant?_cons] at hparent
    obtain ⟨c, hc, hparent⟩ := Option.bind_eq_some_iff.1 hparent
    rcases hchild? hc with hold | hnew
    · have hbefore : n.descendant? (k :: way) = some parent := by
        rw [descendant?_cons, hold]
        exact hparent
      exact (hn _ i axis f parent child hbefore hchild hf).embed hembeds.became
    · exact ((hkids c hnew).1 way i axis f parent child hparent hchild hf).embed
        (Embeds.child hc).became

theorem fits_childless (h : n.children = []) : n.Fits j := by
  intro way i axis f parent child hparent hchild _
  cases way with
  | nil =>
    obtain rfl := Option.some.inj hparent
    rw [h] at hchild
    cases hchild
  | cons k way =>
    rw [descendant?_cons, h] at hparent
    cases hparent

/-- What became of a side in a skin became of it in a copy. -/
theorem Became.copy {q : Prefab} {handle : PrefabRef} {a b : Single}
    (h : Became j axis q.root way a b) (hstored : .stored q (.ok handle) ∈ j)
    (hchildren : n.children = q.root.children) (hskin : n.skin = some handle)
    (hkinds : q.root.behaviors.map Behavior.kind ⊆ n.behaviors.map Behavior.kind) :
    Became j axis n way a b := by
  by_cases hview : q.root.IsViewport way
  · have hcopied : n.IsViewport way := by
      have hnodes : ∀ way s, q.root.descendant? way = some s →
          ∃ s', n.descendant? ([] ++ way) = some s' ∧ ∀ below, s.Scrolls below → s'.Scrolls below := by
        intro way s hs
        cases way with
        | nil =>
          obtain rfl := Option.some.inj hs
          refine ⟨n, rfl, fun below hscrolls => hscrolls.congr ?_ fun h => ?_⟩
          · rw [outline, outline, hchildren]
          · rw [has_iff_mem] at h ⊢
            exact hkinds h
        | cons k way =>
          refine ⟨s, ?_, fun _ => id⟩
          rw [descendant?_cons] at hs
          rw [List.nil_append, descendant?_cons, hchildren, hs]
      exact hview.map hnodes
    exact .inSkin hcopied (List.nil_append way).symm rfl hskin hstored h
  · rw [h.eq_of_not_isViewport hview]
    exact .kept _ _ _

theorem Fits.copy {q : Prefab} {handle : PrefabRef} (hroot : q.root.Fits j)
    (hstored : .stored q (.ok handle) ∈ j) (name : String) :
    Loose j { q.root with name, skin := some handle } := by
  intro n hchildren hskin hkinds way i axis f parent child hparent hchild hf
  cases way with
  | nil =>
    obtain rfl := Option.some.inj hparent
    rw [hchildren] at hchild
    exact .bySkin hskin hstored hchild hf (.kept _ _ _)
  | cons k way =>
    have hbefore : q.root.descendant? (k :: way) = some parent := by
      rw [descendant?_cons] at hparent ⊢
      rwa [hchildren] at hparent
    have hcopied : ∀ {way a b}, Became j axis q.root way a b → Became j axis n ([] ++ way) a b :=
      fun hab => hab.copy hstored hchildren hskin hkinds
    exact (hroot _ i axis f parent child hbefore hchild hf).embed hcopied

end Node

def Importer.KeepsFit (i : Importer ω) : Prop :=
  ∀ (j : Journal ω) scope e n, n.Fits j → (i scope e n).Makes (Node.Fits j)

theorem Importer.Settles.keepsFit {i : Importer ω} (hi : i.Settles) : i.KeepsFit :=
  fun j scope e n hn => (hi j scope e n).imp fun _ h => hn.settle h

namespace Widget

theorem textInput_keepsFit : (textInput : Importer ω).KeepsFit := by
  intro j scope e n hn
  cases htemplate : scope.isTemplate with
  | true => exact (textInput_settles j scope htemplate e n).imp fun _ h => hn.settle h
  | false =>
    unfold textInput
    rw [htemplate]
    refine (Importing.Makes.attached scope _ _).imp fun made ⟨bs, hmade, _⟩ => ?_
    subst hmade
    exact Node.fits_childless rfl

theorem builtIn_keepsFit {w : String} {i : Importer ω}
    (h : (w, i) ∈ Registry.builtInImporters) : w = "Image" ∧ i = image ∨ i.KeepsFit := by
  simp only [Registry.builtInImporters, List.mem_cons, List.not_mem_nil, or_false,
    Prod.mk.injEq] at h
  rcases h with h | ⟨-, rfl⟩ | ⟨-, rfl⟩ | ⟨-, rfl⟩ | ⟨-, rfl⟩ | ⟨-, rfl⟩ | ⟨-, rfl⟩ | ⟨-, rfl⟩ |
    ⟨-, rfl⟩ | ⟨-, rfl⟩
  · exact .inl h
  · exact .inr label_settles.keepsFit
  · exact .inr label_settles.keepsFit
  · exact .inr bitmapLabel_settles.keepsFit
  · exact .inr (scrollBar_settles .horizontal).keepsFit
  · exact .inr (scrollBar_settles .vertical).keepsFit
  · exact .inr scroller_settles.keepsFit
  · exact .inr progressBar_settles.keepsFit
  · exact .inr textInput_keepsFit
  · exact .inr fun _ _ _ _ hn => .pure hn

end Widget

namespace Setting
variable {setting : Setting ω}

theorem accepted_image (hregistry : setting.registry = .builtIn) {e : Element}
    {override : Option String} (h : widgetFor e override = some "Image") :
    setting.accepted e override = [] := by
  refine List.filter_eq_nil_iff.2 fun c _ => ?_
  rw [h, acceptsUnder, hregistry]
  simp [Registry.accepts, Registry.builtIn, Registry.leaves]

/-- Shares are accounted for in all trees of a run. -/
theorem fitting (hregistry : setting.registry = .builtIn) :
    setting.TreeInvariant Node.Loose Node.Fits where
  mono_begun h hn := fun n hchildren hskin hkinds =>
    (hn n hchildren hskin hkinds).mono_journal h
  mono_done h hn := hn.mono_journal h
  plain _ _ := fun _ hchildren _ _ => Node.fits_childless hchildren
  copy name hstored hroot := hroot.copy hstored name
  grow {j begins source e override parent fresh made kids s t} hfresh hkids himported := by
    have hbuiltIn : setting.registry.OnlyBuiltIn := hregistry ▸ Registry.builtIn_onlyBuiltIn
    let before : Node := { setting.assembled e override parent fresh kids with
      children := fresh.children }
    have hbefore : before.Fits j := hfresh before rfl rfl (List.Subset.refl _)
    have hassembled : (setting.assembled e override parent fresh kids).Fits j := by
      have hshares : ∀ c ∈ kids, c.Fits j ∧ ∀ axis f, c.fraction? axis = some f →
          c.size.along axis =
            f * (setting.assembled e override parent fresh kids).size.along axis := by
        intro c hc
        obtain ⟨hfits, k, -, hgrown⟩ := hkids c hc
        exact ⟨hfits, fun axis f hf => hgrown.along_of_fraction hbuiltIn hf⟩
      have hchildren : (setting.assembled e override parent fresh kids).children =
          before.children ++ kids := rfl
      have hbody : (setting.assembled e override parent fresh kids).toBody = before.toBody := rfl
      exact hbefore.append hchildren hbody hshares
    apply importNode_induction himported hassembled
    intro w i scope around hw hi
    rw [hregistry] at hi
    rcases Widget.builtIn_keepsFit (Registry.mem_of_importer? hi) with ⟨rfl, rfl⟩ | hkeeps
    · have hnone : kids = [] := by
        refine List.eq_nil_iff_forall_not_mem.2 fun c hc => ?_
        obtain ⟨-, k, hk, -⟩ := hkids c hc
        rw [accepted_image hregistry hw] at hk
        cases hk
      subst hnone
      obtain ⟨size, bs, hmade, -, hkinds⟩ := Widget.image_made scope e _ around
      rw [hmade]
      exact hfresh _ (List.append_nil _) rfl hkinds
    · exact hkeeps j scope e _ hassembled around

/-- A side of a child that was given as a share is the share of the side that the parent was laid out
with; or the child was copied, and has the side that it has in the skin of the parent. Sides of zero
may since have become those of viewports. Away from skins and viewports it is the share of the side
that the parent has. -/
theorem percentages_measured (hregistry : setting.registry = .builtIn) {world : ω}
    {paths : List Path} {before after : Journal ω} {p : Prefab}
    {result : Except Failure PrefabRef}
    (hsplit : setting.runJournal world paths = before ++ .stored p result :: after)
    {way : List Nat} {i : Nat} {axis : Axis} {f : Single} {parent child : Node}
    (hparent : p.root.descendant? way = some parent) (hchild : parent.children[i]? = some child)
    (hf : child.fraction? axis = some f) :
    Node.Measured before p.root way i axis f parent child ∧
      (parent.skin = none → ¬p.root.IsViewport way → ¬p.root.IsViewport (way ++ [i]) →
        child.size.along axis = f * parent.size.along axis) := by
  have hmeasured : Node.Measured before p.root way i axis f parent child :=
    (fitting hregistry).founded world paths before p result after hsplit way i axis f parent child
      hparent hchild hf
  refine ⟨hmeasured, fun hskin hparentView hchildView => ?_⟩
  cases hmeasured with
  | byParent hp hc =>
    rw [hc.eq_of_not_isViewport hchildView, hp.eq_of_not_isViewport hparentView]
  | bySkin hs =>
    rw [hskin] at hs
    cases hs

/-- A card with an image that is as wide as the card, and a scroller with a group. -/
def card : Setting Unit where
  skins := SkinTable.empty.insert "eui.Card" ⟨"card.exml"⟩
  sources :=
    { read := fun path _ =>
        if path = ⟨"card.exml"⟩ then
          .ok "<e:Skin width=\"120\"><e:Image width=\"100%\"/></e:Skin>"
        else
          .ok ("<e:Group width=\"80\"><e:Card width=\"25%\"/><e:Scroller width=\"100\">" ++
            "<e:Group><e:Image width=\"50%\"/></e:Group></e:Scroller></e:Group>") }
  locator := .openLocator
  store := .memory

/-- The way to a parent, its width, and the width and the share of one of its children. -/
def widthsAt (root : Node) (way : List Nat) (i : Nat) : Option (Single × Single × Option Single) := do
  let parent ← root.descendant? way
  let child ← parent.children[i]?
  return (parent.size.width, child.size.width, child.widthPercent)

theorem widthsAt_some {root : Node} {way : List Nat} {i : Nat} {outer inner : Single}
    {f : Option Single} (h : widthsAt root way i = some (outer, inner, f)) :
    ∃ parent child, root.descendant? way = some parent ∧ parent.children[i]? = some child ∧
      parent.size.width = outer ∧ child.size.width = inner ∧ child.widthPercent = f := by
  unfold widthsAt at h
  obtain ⟨parent, hparent, h⟩ := Option.bind_eq_some_iff.1 h
  obtain ⟨child, hchild, h⟩ := Option.bind_eq_some_iff.1 h
  obtain ⟨rfl, rfl, rfl⟩ := Option.some.inj h
  exact ⟨parent, child, hparent, hchild, rfl, rfl, rfl⟩

/-- The image in the card is copied with the width that it has in the skin, and the image in the
group is laid out before the scroller stretches the group. -/
theorem card_disproportionate :
    card.registry = .builtIn ∧ ∃ p handle,
      .stored p (.ok handle) ∈ card.runJournal () [⟨"main.exml"⟩] ∧
        ∀ way ∈ [[0], [1, 0]], ∃ parent child f, p.root.descendant? way = some parent ∧
          parent.children[0]? = some child ∧ child.widthPercent = some f ∧
            child.size.width ≠ f * parent.size.width := by
  have hshares : ((card.runJournal () [⟨"main.exml"⟩]).accepted.map fun c =>
      (widthsAt c.1.root [0] 0, widthsAt c.1.root [1, 0] 0))[1]? =
        some (some (20, 120, some 1), some (100, 0, some (50 / 100))) := by decide +kernel
  rw [List.getElem?_map] at hshares
  obtain ⟨⟨p, handle⟩, hsecond, hpair⟩ := Option.map_eq_some_iff.1 hshares
  obtain ⟨hcard, hscroller⟩ := Prod.mk.inj hpair
  refine ⟨rfl, p, handle, Journal.mem_accepted.1 (List.mem_of_getElem? hsecond), ?_⟩
  intro way hway
  simp only [List.mem_cons, List.not_mem_nil, or_false] at hway
  rcases hway with rfl | rfl
  · obtain ⟨parent, child, hparent, hchild, houter, hinner, hf⟩ := widthsAt_some hcard
    refine ⟨parent, child, 1, hparent, hchild, hf, ?_⟩
    rw [houter, hinner]
    decide +kernel
  · obtain ⟨parent, child, hparent, hchild, houter, hinner, hf⟩ := widthsAt_some hscroller
    refine ⟨parent, child, 50 / 100, hparent, hchild, hf, ?_⟩
    rw [houter, hinner]
    decide +kernel

/-- The card itself has a quarter of the width of the group that it is in. -/
theorem card_measured :
    card.registry = .builtIn ∧ ∃ before p result after parent child,
      card.runJournal () [⟨"main.exml"⟩] = before ++ .stored p result :: after ∧
        p.root.descendant? [] = some parent ∧ parent.children[0]? = some child ∧
          child.fraction? .horizontal = some (25 / 100) ∧
            Node.Measured before p.root [] 0 .horizontal (25 / 100) parent child ∧
              child.size.width = 25 / 100 * parent.size.width := by
  have hviews : ((card.runJournal () [⟨"main.exml"⟩]).accepted.map fun c =>
      (widthsAt c.1.root [] 0, c.1.root.has .scrollView, c.1.root.skin,
        c.1.root.children[0]?.map fun d => d.has .scrollView))[1]? =
          some (some (80, 20, some (25 / 100)), false, none, some false) := by decide +kernel
  rw [List.getElem?_map] at hviews
  obtain ⟨⟨p, handle⟩, hsecond, hview⟩ := Option.map_eq_some_iff.1 hviews
  obtain ⟨hshares, hrest⟩ := Prod.mk.inj hview
  obtain ⟨hroot, hrest⟩ := Prod.mk.inj hrest
  obtain ⟨hskin, hcard⟩ := Prod.mk.inj hrest
  obtain ⟨before, after, hsplit, -⟩ := Journal.exists_of_accepted hsecond
  obtain ⟨parent, child, hparent, hchild, -, -, hf⟩ := widthsAt_some hshares
  obtain rfl := Option.some.inj hparent
  rw [hchild] at hcard
  have hnone : ∀ way, way <+: [0] → ¬p.root.IsViewport way := by
    intro way hway
    apply Node.not_isViewport
    intro above s habove hs
    rcases List.prefix_cons_iff.1 (habove.trans hway) with rfl | ⟨below, rfl, hbelow⟩
    · obtain rfl := Option.some.inj hs
      exact hroot
    · obtain rfl := List.prefix_nil.1 hbelow
      rw [Node.descendant?_cons, hchild] at hs
      obtain rfl := Option.some.inj hs
      exact Option.some.inj hcard
  have hfraction : child.fraction? .horizontal = some (25 / 100) := hf
  obtain ⟨hmeasured, hshare⟩ := percentages_measured rfl hsplit hparent hchild hfraction
  exact ⟨rfl, before, p, _, after, _, child, hsplit, hparent, hchild, hfraction, hmeasured,
    hshare hskin (hnone [] (by simp)) (hnone [0] (by simp))⟩

end Setting

end MarkupScene

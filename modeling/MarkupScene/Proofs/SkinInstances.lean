import MarkupScene.Proofs.Accounts

/-!
# Instances of skins

When a run is calm, a node whose element looks up a skin starts as an instance of it exactly when
the skin is not being compiled and its file can be read. The instance is the stored root of the
skin under the name of the node; otherwise the node starts plain, and the run goes on.
-/
namespace MarkupScene.Setting

variable {ω : Type} {setting : Setting ω} {world : ω} {paths : List Path}

theorem lookup?_eq (setting : Setting ω) {e : Element} (hinline : e.inlineSkin? = none) :
    setting.lookup? e none = setting.skins.fileFor? e := by
  unfold lookup?
  rw [hinline]
  rfl

/-- What a node is right after its creation, when its element looks up a skin. -/
structure StartsExactly (setting : Setting ω) (world : ω) (j : Journal ω) (stack : List Path)
    (e : Element) (file : Path) (n : Node) : Prop where
  instance_iff : n.isSkinInstance = true ↔
    isOn stack file = false ∧ ∃ root, setting.sources.document file world = .ok root
  copy : n.isSkinInstance = true → ∃ p handle, .stored p (.ok handle) ∈ j ∧ p.source = file ∧
    n = { p.root with name := e.nodeName, skin := some handle }
  plain : n.isSkinInstance = false → n = { name := e.nodeName }

/-- Skin references degrade exactly when they have to, in every calm run. -/
theorem start_of_skin_reference (hcalm : setting.Calm world (setting.journal world paths))
    {stack : List Path} {e : Element} {result : Except Failure Node}
    (hstarted : .started ⟨stack, e, none, result⟩ ∈ setting.journal world paths)
    (hinline : e.inlineSkin? = none) {file : setting.skins.File}
    (hfile : setting.skins.fileFor? e = some file) :
    (setting.compileAll paths).run { world } = (.ok (), setting.compileEach paths { world }) ∧
      ∃ n, result = .ok n ∧
        setting.StartsExactly world (setting.journal world paths) stack e file.1 n := by
  have hlookup : setting.lookup? e none = some file := (setting.lookup?_eq hinline).trans hfile
  obtain ⟨n, rfl⟩ := hcalm.exists_started hstarted
  refine ⟨hcalm.run_compileAll, n, rfl, ?_⟩
  cases hcalm.startsFrom hstarted hlookup with
  | cyclic hon =>
    refine ⟨⟨(fun hfalse => nomatch hfalse), fun hoff => ?_⟩,
      (fun hfalse => nomatch hfalse), fun _ => rfl⟩
    rw [hon] at hoff
    cases hoff.1
  | unread hdocument =>
    refine ⟨⟨(fun hfalse => nomatch hfalse), fun hread => ?_⟩,
      (fun hfalse => nomatch hfalse), fun _ => rfl⟩
    obtain ⟨-, root, hroot⟩ := hread
    rw [hroot] at hdocument
    cases hdocument
  | copied hoff hstored =>
    obtain ⟨-, -, root, hroot, -, -⟩ := hcalm.built hstored
    exact ⟨⟨fun _ => ⟨hoff, root, hroot⟩, fun _ => rfl⟩,
      fun _ => ⟨_, _, hstored, rfl, rfl⟩, fun hfalse => nomatch hfalse⟩

theorem button_starts_as_instance :
    ∃ e n, .started ⟨[⟨"main.exml"⟩], e, none, .ok n⟩ ∈ oneSkin.journal () [⟨"main.exml"⟩] ∧
      n.isSkinInstance = true := by
  have hcalm := oneSkin_calm [⟨"main.exml"⟩]
  have hmain : (⟨"main.exml"⟩ : Path).normalize = ⟨"main.exml"⟩ := by decide +kernel
  obtain ⟨root, handle, hstored⟩ :=
    hcalm.stored_of_document List.mem_cons_self (oneSkin_document () _)
  obtain ⟨-, below, e, hdocument, hcalled, hgrown⟩ := hcalm.built hstored
  rw [hmain] at hdocument hcalled hgrown
  have hbelow : below = [] := by
    cases hcalled with
    | outside => rfl
    | skin _ hrefers => exact absurd (oneSkin_refers hrefers) (by decide)
  obtain rfl := Except.ok.inj ((oneSkin_document () _).symm.trans hdocument)
  subst hbelow
  have hwidget : oneSkin.rootWidget? ⟨"main.exml"⟩ = none := by decide +kernel
  rw [hwidget] at hgrown
  cases hgrown with
  | node hbegins =>
    have hfile : oneSkin.skins.fileFor? { namePrefix := "e", localName := "Button" } =
        some ⟨⟨"button.exml"⟩, by decide +kernel⟩ := by
      decide +kernel
    obtain ⟨-, n, hresult, hstarts⟩ := start_of_skin_reference hcalm hbegins rfl hfile
    obtain rfl := Except.ok.inj hresult
    exact ⟨_, _, hbegins, hstarts.instance_iff.2 ⟨by decide +kernel, _, oneSkin_document () _⟩⟩

end MarkupScene.Setting

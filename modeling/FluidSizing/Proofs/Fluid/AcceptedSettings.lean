import FluidSizing.Proofs.Fluid.SettingsText

/-! What a text that gives settings looks like: it is an object of settings, each given at most once, or a
list of them in their order, and the numbers of the settings are finite and not negative
(`Settings.isWritten_of_ofText`). What members and elements are read as says how they are written
(`exists_members`, `exists_elements`). -/

namespace FluidSizing
namespace Json

variable {first : Bool} {given result : GivenSettings} {text rest value : Text}

/-- Members that have been read have new names, and values of the settings they name. -/
theorem exists_members (h : readMembers first given text = .ok (result, rest)) :
    ∃ (blanks : Blanks) (members : List Member),
      text = blanks.text ++ separated first (members.map Member.source) ('\x7d' :: rest) ∧
      NewNames given members ∧
      (∀ member ∈ members, ∃ name, SettingName.text name = member.name ∧ Admits name member.value) ∧
      (FiniteNumbers given → FiniteNumbers result) := by
  fun_induction readMembers first given text with
  | case1 first given text fault hnext => cases h
  | case2 first given text behind hnext =>
      obtain ⟨rfl, rfl⟩ := Prod.mk.inj (Except.ok.inj h)
      obtain ⟨blanks, rfl⟩ := nextMember_eq_closing_iff.mp hnext
      exact ⟨blanks, [], rfl, newNames_nil, List.forall_mem_nil _, id⟩
  | case3 => cases h
  | case4 => cases h
  | case5 first given text key hnext name value hname next behind hvalue ih =>
      -- The white space in front of the members behind is that behind this one.
      obtain ⟨blanks', members, rfl, hnames, hadmits, hfinite⟩ := ih h
      obtain ⟨blanks, before, rfl⟩ := exists_of_nextMember_here hnext
      obtain ⟨spelling, beforeColon, rfl, hspells⟩ := exists_of_readName hname
      obtain ⟨beforeValue, value, rfl, hadmits', hhas, hfinite'⟩ := exists_of_readSetting hvalue
      refine ⟨blanks, ⟨before, spelling, name.text, hspells, beforeColon, beforeValue, value, blanks'⟩ ::
        members, ?_, hnames.cons rfl (has_eq_false_of_readName hname) hhas,
        List.forall_mem_cons.mpr ⟨⟨name, rfl, hadmits'⟩, hadmits⟩, fun hgiven => hfinite (hfinite' hgiven)⟩
      rw [List.map_cons, separated, Member.source_append]

/-! Lists. -/

theorem exists_of_nextElement_closing (h : nextElement first text = .ok (.closing rest)) :
    ∃ blanks : Blanks, text = blanks.text ++ ']' :: rest := by
  obtain ⟨blanks, hblanks⟩ := exists_blanks text
  refine ⟨blanks, hblanks.trans ?_⟩
  unfold nextElement at h
  split at h
  · cases h
  · rename_i c behind hskip
    rw [hskip]
    split at h
    · rename_i hc
      rw [hc, Next.closing.inj (Except.ok.inj h)]
    · split at h
      · cases h
      · split at h
        · split at h
          · cases h
          · split at h <;> cases h
        · cases h

theorem exists_of_nextElement_here (h : nextElement first text = .ok (.here value)) :
    ∃ blanks before : Blanks, text = blanks.text ++ (comma first ++ (before.text ++ value)) := by
  obtain ⟨blanks, hblanks⟩ := exists_blanks text
  refine ⟨blanks, ?_⟩
  unfold nextElement at h
  split at h
  · cases h
  · rename_i c behind hskip
    rw [hskip] at hblanks
    split at h
    · cases h
    · split at h
      · rename_i hfirst
        refine ⟨.none, ?_⟩
        rw [hblanks, hfirst, Next.here.inj (Except.ok.inj h)]
        rfl
      · rename_i hfirst
        split at h
        · rename_i hc
          obtain ⟨before, hbefore⟩ := exists_blanks behind
          refine ⟨before, ?_⟩
          split at h
          · cases h
          · rename_i d behind' hskip'
            split at h
            · cases h
            · rw [hblanks, hc, hbefore, hskip', Next.here.inj (Except.ok.inj h), comma, if_neg hfirst]
              rfl
        · cases h

theorem exists_of_endList (h : endList text = .ok rest) :
    ∃ blanks : Blanks, text = blanks.text ++ ']' :: rest := by
  obtain ⟨blanks, hblanks⟩ := exists_blanks text
  refine ⟨blanks, hblanks.trans ?_⟩
  unfold endList at h
  split at h
  · cases h
  · rename_i c behind hskip
    rw [hskip]
    split at h
    · rename_i hc
      rw [hc, Except.ok.inj h]
    · split at h
      · split at h <;> cases h
      · cases h

/-- Elements that have been read are values of the first of the settings asked for. -/
theorem exists_elements {names : List SettingName}
    (h : readElements first given names text = .ok (result, rest)) :
    ∃ (blanks : Blanks) (elements : List Element),
      text = blanks.text ++ separated first (elements.map Element.source) (']' :: rest) ∧
      (∃ taken, taken <+: names ∧
        List.Forall₂ (fun name element => Admits name element.value) taken elements) ∧
      (FiniteNumbers given → FiniteNumbers result) := by
  induction names generalizing first given text with
  | nil =>
      obtain ⟨behind, hend, heq⟩ := exists_of_map_eq_ok h
      obtain ⟨rfl, rfl⟩ := Prod.mk.inj heq
      obtain ⟨blanks, rfl⟩ := exists_of_endList hend
      exact ⟨blanks, [], rfl, ⟨[], List.prefix_rfl, .nil⟩, id⟩
  | cons name names ih =>
      rw [readElements] at h
      split at h
      · cases h
      · rename_i behind hnext
        obtain ⟨rfl, rfl⟩ := Prod.mk.inj (Except.ok.inj h)
        obtain ⟨blanks, rfl⟩ := exists_of_nextElement_closing hnext
        exact ⟨blanks, [], rfl, ⟨[], List.nil_prefix, .nil⟩, id⟩
      · rename_i value hnext
        split at h
        · cases h
        · rename_i next behind hvalue
          obtain ⟨blanks', elements, rfl, ⟨taken, hprefix, htaken⟩, hfinite⟩ := ih h
          obtain ⟨blanks, before, rfl⟩ := exists_of_nextElement_here hnext
          obtain ⟨before', value, rfl, hadmits, -, hfinite'⟩ := exists_of_readSetting hvalue
          refine ⟨blanks, ⟨before.append before', value, blanks'⟩ :: elements, ?_, ⟨name :: taken, ?_, ?_⟩,
            fun hgiven => hfinite (hfinite' hgiven)⟩
          · simp only [List.map_cons, separated, Element.source, Blanks.append, List.append_assoc]
          · exact List.cons_prefix_cons.mpr ⟨rfl, hprefix⟩
          · exact .cons hadmits htaken

/-! Whole texts. -/

/-- An object of settings, each at most once. -/
def IsSettingsObject (text : Text) : Prop :=
  ∃ (lead inner : Blanks) (members : List Member) (trail : Blanks),
    text = objectText lead inner members trail ∧ (members.map Member.name).Nodup ∧
      ∀ member ∈ members, ∃ name, SettingName.text name = member.name ∧ Admits name member.value

/-- A list of the first of the settings, in their order. -/
def IsSettingsList (text : Text) : Prop :=
  ∃ (lead inner : Blanks) (elements : List Element) (trail : Blanks),
    text = listText lead inner elements trail ∧
      ∃ names, names <+: SettingName.all ∧
        List.Forall₂ (fun name element => Admits name element.value) names elements

theorem finiteNumbers_none : FiniteNumbers {} := by
  rintro (_ | _ | _ | _) x hx <;> cases hx

theorem isWritten_of_readGiven {trail : Blanks} (h : readGiven text = .ok (given, trail.text)) :
    (IsSettingsObject text ∨ IsSettingsList text) ∧ FiniteNumbers given := by
  obtain ⟨lead, hlead⟩ := exists_blanks text
  unfold readGiven at h
  split at h
  · cases h
  · rename_i c behind hskip
    rw [hskip] at hlead
    split at h
    · rename_i hc
      obtain ⟨inner, members, rfl, hnames, hadmits, hfinite⟩ := exists_members h
      exact ⟨.inl ⟨lead, inner, members, trail, by rw [hlead, hc]; rfl, hnames.distinct, hadmits⟩,
        hfinite finiteNumbers_none⟩
    · split at h
      · rename_i hc
        obtain ⟨inner, elements, rfl, htaken, hfinite⟩ := exists_elements h
        exact ⟨.inr ⟨lead, inner, elements, trail, by rw [hlead, hc]; rfl, htaken⟩,
          hfinite finiteNumbers_none⟩
      · cases h

theorem isWritten_of_readWhole (h : readWhole text = .ok given) :
    (IsSettingsObject text ∨ IsSettingsList text) ∧ FiniteNumbers given := by
  unfold readWhole at h
  split at h
  · cases h
  · rename_i given' rest hgiven
    obtain ⟨trail, htrail⟩ := exists_blanks rest
    split at h
    · rename_i hskip
      rw [hskip, List.append_nil] at htrail
      rw [htrail, Except.ok.inj h] at hgiven
      exact isWritten_of_readGiven hgiven
    · cases h

end Json

namespace Settings

/-- What a text that gives settings looks like, and the numbers it gives. -/
theorem isWritten_of_ofText (text : Text) (settings : Settings) (h : ofText text = .ok settings) :
    (Json.IsSettingsObject text ∨ Json.IsSettingsList text) ∧
      ∀ name, ∀ x ∈ settings.number? name, x.isFinite = true ∧ 0 ≤ x.value := by
  unfold ofText at h
  split at h
  · cases h
  · rename_i given hgiven
    split at h
    · cases h
    · rename_i hnone
      obtain ⟨hwritten, hfinite⟩ := Json.isWritten_of_readWhole hgiven
      refine ⟨hwritten, ?_⟩
      rw [← Except.ok.inj h]
      intro name x hx
      have hless := negative?_eq_none_iff.mp hnone name x hx
      have hx' : x.isFinite = true := by
        rw [number?_complete, Option.mem_def, Option.or_eq_some_iff] at hx
        rcases hx with hx | ⟨-, hx⟩
        · exact hfinite name x hx
        · exact (number?_default hx).1
      rw [Binary64.isLess_zero hx', decide_eq_false_iff_not, not_lt] at hless
      exact ⟨hx', hless⟩

theorem isWritten_of_ofText_list :
    ofText "[true,320]".toList = .ok { reporting with minWidth := Binary64.ofNat 320 } ∧
      (Json.IsSettingsObject "[true,320]".toList ∨ Json.IsSettingsList "[true,320]".toList) ∧
      ∀ name, ∀ x ∈ ({ reporting with minWidth := Binary64.ofNat 320 } : Settings).number? name,
        x.isFinite = true ∧ 0 ≤ x.value := by
  have hread : ofText "[true,320]".toList = .ok { reporting with minWidth := Binary64.ofNat 320 } := by
    decide +kernel
  exact ⟨hread, isWritten_of_ofText _ _ hread⟩

/-- Settings are not given by objects only. -/
theorem ofText_not_object :
    ofText "[true]".toList = .ok reporting ∧ ¬ Json.IsSettingsObject "[true]".toList := by
  refine ⟨by decide +kernel, ?_⟩
  rintro ⟨lead, inner, members, trail, heq, -⟩
  have hskip := congrArg Json.skipBlanks heq
  rw [Json.objectText, lead.skipBlanks_append, Json.skipBlanks_cons rfl] at hskip
  exact absurd (congrArg List.head? hskip) (by simp [Json.skipBlanks, Json.isBlank])

end Settings

end FluidSizing

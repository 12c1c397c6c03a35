import FluidSizing.Fluid.Settings
import FluidSizing.Proofs.Json.Scalar

/-! Objects and lists of settings as they are written, and what reading does at each part of them. A member is
read if it names a setting that has not been given and its value can be read, and the members behind it are
read where it ends (`Member.readMembers_eq_ok_iff`). What is read for a setting is a value of it
(`exists_of_readSetting`). The number that is refused is the first that is negative (`negative?_eq_some`). -/

namespace FluidSizing

/-! Numbers by the names of their settings. -/

namespace GivenSettings

def number? (given : GivenSettings) : SettingName → Option Binary64
  | .warnings => none
  | .minWidth => given.minWidth
  | .maxWidth => given.maxWidth
  | .baseFontSize => given.baseFontSize

def withNumber (given : GivenSettings) (name : SettingName) (x : Binary64) : GivenSettings :=
  match name with
  | .warnings => given
  | .minWidth => { given with minWidth := some x }
  | .maxWidth => { given with maxWidth := some x }
  | .baseFontSize => { given with baseFontSize := some x }

variable {given : GivenSettings} {name : SettingName} {x : Binary64} (hname : name ≠ .warnings)

include hname in
theorem number?_withNumber (other : SettingName) :
    (given.withNumber name x).number? other = if other = name then some x else given.number? other := by
  cases name with
  | warnings => exact absurd rfl hname
  | minWidth | maxWidth | baseFontSize => cases other <;> rfl

include hname in
theorem has_withNumber (other : SettingName) :
    (given.withNumber name x).has other = (decide (other = name) || given.has other) := by
  cases name with
  | warnings => exact absurd rfl hname
  | minWidth | maxWidth | baseFontSize => cases other <;> rfl

theorem number?_of_has (h : given.has name = false) : given.number? name = none := by
  cases name with
  | warnings => rfl
  | minWidth | maxWidth | baseFontSize => exact Option.not_isSome_iff_eq_none.mp (Bool.eq_false_iff.mp h)

end GivenSettings

namespace SettingName

/-- Whether a setting stands before another one in the order of a list. -/
def Before (name other : SettingName) : Prop := all.idxOf name < all.idxOf other

instance (name other : SettingName) : Decidable (Before name other) :=
  inferInstanceAs (Decidable (all.idxOf name < all.idxOf other))

theorem ofText?_eq_some_iff {text : Text} {name : SettingName} :
    ofText? text = some name ↔ name.text = text := by
  constructor
  · intro h
    have hfound := List.find?_some h
    exact of_decide_eq_true hfound
  · rintro rfl
    cases name <;> rfl

theorem text_injective {name other : SettingName} (h : name.text = other.text) : name = other := by
  have hname := ofText?_eq_some_iff.mpr h
  rw [ofText?_eq_some_iff.mpr rfl] at hname
  exact (Option.some.inj hname).symm

end SettingName

namespace Settings

open Binary64 (zero)

attribute [local irreducible] Binary64.one Binary64.limit

def number? (settings : Settings) : SettingName → Option Binary64
  | .warnings => none
  | .minWidth => some settings.minWidth
  | .maxWidth => some settings.maxWidth
  | .baseFontSize => some settings.baseFontSize

variable {settings : Settings} {name : SettingName} {x : Binary64}

theorem number?_complete (given : GivenSettings) (name : SettingName) :
    given.complete.number? name = (given.number? name).or (default.number? name) := by
  cases name with
  | warnings => rfl
  | minWidth => cases h : given.minWidth <;> simp [number?, GivenSettings.complete, GivenSettings.number?, h]
  | maxWidth => cases h : given.maxWidth <;> simp [number?, GivenSettings.complete, GivenSettings.number?, h]
  | baseFontSize =>
      cases h : given.baseFontSize <;> simp [number?, GivenSettings.complete, GivenSettings.number?, h]

theorem number?_default (h : x ∈ default.number? name) : x.isFinite = true ∧ 0 ≤ x.value := by
  have hofNat : ∀ n ≤ 1536, x = Binary64.ofNat n → x.isFinite = true ∧ 0 ≤ x.value := by
    rintro n hn rfl
    obtain ⟨hfinite, hvalue⟩ := Binary64.ofNat_spec (n := n) (by omega)
    refine ⟨hfinite, ?_⟩
    rw [hvalue]
    exact Nat.cast_nonneg n
  cases name with
  | warnings => cases h
  | minWidth => exact hofNat 768 (by decide) (Option.some.inj h).symm
  | maxWidth => exact hofNat 1536 (by decide) (Option.some.inj h).symm
  | baseFontSize => exact hofNat 16 (by decide) (Option.some.inj h).symm

theorem negative?_eq_none_iff :
    settings.negative? = none ↔ ∀ name, ∀ x ∈ settings.number? name, x.isLess (zero false) = false := by
  rw [negative?, List.find?_eq_none]
  constructor
  · intro h name x hx
    have hmem : (name, x) ∈ [(SettingName.minWidth, settings.minWidth), (.maxWidth, settings.maxWidth),
        (.baseFontSize, settings.baseFontSize)] := by
      cases name with
      | warnings => cases hx
      | minWidth | maxWidth | baseFontSize => simp [← Option.some.inj hx]
    exact Bool.eq_false_iff.mpr (h (name, x) hmem)
  · rintro h ⟨name, x⟩ hmem
    refine Bool.eq_false_iff.mp (h name x ?_)
    simp only [List.mem_cons, Prod.mk.injEq, List.not_mem_nil, or_false] at hmem
    rcases hmem with ⟨rfl, rfl⟩ | ⟨rfl, rfl⟩ | ⟨rfl, rfl⟩ <;> rfl

/-- The number that is refused is negative, and none before it is. -/
theorem negative?_eq_some (h : settings.negative? = some (name, x)) :
    settings.number? name = some x ∧ x.isLess (zero false) = true ∧
      ∀ other, SettingName.Before other name → ∀ y ∈ settings.number? other,
        y.isLess (zero false) = false := by
  have hsome : ∀ {y : Binary64}, y.isLess (zero false) = false →
      ∀ z ∈ some y, z.isLess (zero false) = false := by
    rintro y hy z hz
    rwa [← Option.some.inj hz]
  simp only [negative?, List.find?_cons, List.find?_nil] at h
  split at h
  · rename_i hmin
    obtain ⟨rfl, rfl⟩ := Prod.mk.inj (Option.some.inj h)
    refine ⟨rfl, hmin, fun other hbefore y hy => ?_⟩
    cases other with
    | warnings => cases hy
    | minWidth | maxWidth | baseFontSize => exact absurd hbefore (by decide)
  · rename_i hmin
    split at h
    · rename_i hmax
      obtain ⟨rfl, rfl⟩ := Prod.mk.inj (Option.some.inj h)
      refine ⟨rfl, hmax, fun other hbefore y hy => ?_⟩
      cases other with
      | warnings => cases hy
      | minWidth => exact hsome hmin y hy
      | maxWidth | baseFontSize => exact absurd hbefore (by decide)
    · rename_i hmax
      split at h
      · rename_i hbase
        obtain ⟨rfl, rfl⟩ := Prod.mk.inj (Option.some.inj h)
        refine ⟨rfl, hbase, fun other hbefore y hy => ?_⟩
        cases other with
        | warnings => cases hy
        | minWidth => exact hsome hmin y hy
        | maxWidth => exact hsome hmax y hy
        | baseFontSize => exact absurd hbefore (by decide)
      · cases h

end Settings

namespace Json

/-- A member of an object as it is written. -/
structure Member where
  before : Blanks
  spelling : Text
  name : Text
  spells : Spells spelling name
  beforeColon : Blanks
  beforeValue : Blanks
  value : Text
  behind : Blanks

/-- An element of a list as it is written. -/
structure Element where
  before : Blanks
  value : Text
  behind : Blanks

/-- A value, and the white space around it. -/
def Element.source (element : Element) : Text :=
  element.before.text ++ (element.value ++ element.behind.text)

/-- A name between quotes, a colon and a value, and the white space around them. -/
def Member.source (member : Member) : Text :=
  member.before.text ++ '\x22' :: (member.spelling ++ '\x22' :: (member.beforeColon.text ++ ':' ::
    (member.beforeValue.text ++ (member.value ++ member.behind.text))))

/-- The comma before each part but the first. -/
def comma (first : Bool) : Text := if first then [] else [',']

/-- Parts with commas between them, and what closes them. -/
def separated (first : Bool) : List Text → Text → Text
  | [], closing => closing
  | part :: parts, closing => comma first ++ (part ++ separated false parts closing)

/-- An object with white space around it and behind the bracket that opens it. -/
def objectText (lead inner : Blanks) (members : List Member) (trail : Blanks) : Text :=
  lead.text ++ '\x7b' :: (inner.text ++ separated true (members.map Member.source) ('\x7d' :: trail.text))

/-- A list with white space around it and behind the bracket that opens it. -/
def listText (lead inner : Blanks) (elements : List Element) (trail : Blanks) : Text :=
  lead.text ++ '[' :: (inner.text ++ separated true (elements.map Element.source) (']' :: trail.text))

variable {first : Bool} {given next : GivenSettings} {name : SettingName} {text rest rest' key : Text}

/-! Reading the punctuation. -/

theorem nextMember_eq_closing_iff :
    nextMember first text = .ok (.closing rest) ↔ ∃ pad : Blanks, text = pad.text ++ '\x7d' :: rest := by
  constructor
  · intro h
    obtain ⟨pad, hpad⟩ := exists_blanks text
    refine ⟨pad, hpad.trans ?_⟩
    unfold nextMember at h
    split at h
    · cases h
    · rename_i c behind hskip
      rw [hskip]
      split at h
      · rename_i hc
        rw [hc, Next.closing.inj (Except.ok.inj h)]
      · split at h
        · split at h <;> cases h
        · split at h
          · split at h
            · cases h
            · split at h
              · cases h
              · split at h <;> cases h
          · cases h
  · rintro ⟨pad, rfl⟩
    rw [nextMember, pad.skipBlanks_append, skipBlanks_cons rfl]
    rfl

theorem nextMember_here (blanks before : Blanks) :
    nextMember first (blanks.text ++ (comma first ++ (before.text ++ '\x22' :: key))) = .ok (.here key) := by
  cases first with
  | true =>
      rw [comma, if_pos rfl, List.nil_append, nextMember, blanks.skipBlanks_append,
        before.skipBlanks_append, skipBlanks_cons rfl]
      rfl
  | false =>
      rw [comma, if_neg Bool.false_ne_true, List.singleton_append, nextMember, blanks.skipBlanks_append,
        skipBlanks_cons rfl]
      dsimp only
      rw [if_neg (by decide), if_neg (by decide), if_pos rfl, before.skipBlanks_append,
        skipBlanks_cons rfl]
      rfl

theorem exists_of_nextMember_here (h : nextMember first text = .ok (.here key)) :
    ∃ blanks before : Blanks, text = blanks.text ++ (comma first ++ (before.text ++ '\x22' :: key)) := by
  obtain ⟨blanks, hblanks⟩ := exists_blanks text
  refine ⟨blanks, ?_⟩
  unfold nextMember at h
  split at h
  · cases h
  · rename_i c behind hskip
    rw [hskip] at hblanks
    split at h
    · cases h
    · split at h
      · rename_i hfirst
        split at h
        · rename_i hc
          refine ⟨.none, ?_⟩
          rw [hblanks, hfirst, hc, Next.here.inj (Except.ok.inj h)]
          rfl
        · cases h
      · rename_i hfirst
        split at h
        · rename_i hc
          obtain ⟨before, hbefore⟩ := exists_blanks behind
          split at h
          · cases h
          · rename_i d behind' hskip'
            split at h
            · rename_i hd
              refine ⟨before, ?_⟩
              rw [hblanks, hc, hbefore, hskip', hd, Next.here.inj (Except.ok.inj h), comma, if_neg hfirst]
              rfl
            · split at h <;> cases h
        · cases h

theorem readColon_eq_ok_iff :
    readColon text = .ok rest ↔ ∃ blanks : Blanks, text = blanks.text ++ ':' :: rest := by
  constructor
  · intro h
    obtain ⟨blanks, hblanks⟩ := exists_blanks text
    refine ⟨blanks, hblanks.trans ?_⟩
    unfold readColon at h
    split at h
    · cases h
    · rename_i hskip
      rw [hskip, Except.ok.inj h]
    · cases h
  · rintro ⟨blanks, rfl⟩
    rw [readColon, blanks.skipBlanks_append, skipBlanks_cons rfl]
    rfl

/-! Reading names. -/

theorem Member.readName_eq_ok_iff (member : Member) (rest : Text) :
    readName given (member.spelling ++ '\x22' :: (member.beforeColon.text ++ ':' :: rest)) =
        .ok (name, rest') ↔
      name.text = member.name ∧ given.has name = false ∧ rest' = rest := by
  have hcolon : readColon (member.beforeColon.text ++ ':' :: rest) = .ok rest :=
    readColon_eq_ok_iff.mpr ⟨member.beforeColon, rfl⟩
  rw [readName, member.spells.readString]
  dsimp only
  rw [hcolon]
  constructor
  · intro h
    split at h
    · cases h
    · rename_i setting hsetting
      split at h
      · cases h
      · rename_i hnew
        obtain ⟨rfl, rfl⟩ := Prod.mk.inj (Except.ok.inj h)
        exact ⟨SettingName.ofText?_eq_some_iff.mp hsetting, Bool.eq_false_iff.mpr hnew, rfl⟩
  · rintro ⟨hname, hnew, rfl⟩
    rw [SettingName.ofText?_eq_some_iff.mpr hname]
    dsimp only
    rw [hnew]
    rfl

theorem exists_of_readName (h : readName given text = .ok (name, rest)) :
    ∃ (spelling : Text) (beforeColon : Blanks),
      text = spelling ++ '\x22' :: (beforeColon.text ++ ':' :: rest) ∧ Spells spelling name.text := by
  rw [readName] at h
  split at h
  · cases h
  · rename_i key behind hkey
    obtain ⟨spelling, rfl, hspells⟩ := exists_spells hkey
    split at h
    · cases h
    · rename_i setting hsetting
      split at h
      · cases h
      · obtain ⟨rest', hcolon, heq⟩ := exists_of_map_eq_ok h
        obtain ⟨rfl, rfl⟩ := Prod.mk.inj heq
        obtain ⟨beforeColon, rfl⟩ := readColon_eq_ok_iff.mp hcolon
        rw [← SettingName.ofText?_eq_some_iff.mp hsetting] at hspells
        exact ⟨spelling, beforeColon, rfl, hspells⟩

/-! Reading members. -/

theorem readMembers_closing (pad : Blanks) :
    readMembers first given (pad.text ++ '\x7d' :: rest) = .ok (given, rest) := by
  rw [readMembers, nextMember_eq_closing_iff.mpr ⟨pad, rfl⟩]

theorem Member.source_append (member : Member) :
    member.source ++ rest = member.before.text ++ '\x22' :: (member.spelling ++ '\x22' ::
      (member.beforeColon.text ++ ':' :: (member.beforeValue.text ++ (member.value ++
        (member.behind.text ++ rest))))) := by
  simp only [Member.source, List.append_assoc, List.cons_append]

/-- What reading a member comes to. -/
theorem Member.readMembers_eq_ok_iff (member : Member) (blanks : Blanks) {result : GivenSettings} :
    readMembers first given (blanks.text ++ (comma first ++ (member.source ++ rest))) =
        .ok (result, rest') ↔
      ∃ name next behind, name.text = member.name ∧ given.has name = false ∧
        readSetting given name (member.beforeValue.text ++ (member.value ++ (member.behind.text ++ rest))) =
          .ok (next, behind) ∧
        readMembers false next behind = .ok (result, rest') := by
  rw [member.source_append, readMembers, nextMember_here]
  dsimp only
  -- The text of the value is only handed on until the setting is known.
  generalize member.beforeValue.text ++ (member.value ++ (member.behind.text ++ rest)) = text
  constructor
  · intro h
    split at h
    · cases h
    · rename_i name value hread
      obtain ⟨hname, hnew, rfl⟩ := (member.readName_eq_ok_iff _).mp hread
      split at h
      · cases h
      · rename_i next behind hvalue
        exact ⟨name, next, behind, hname, hnew, hvalue, h⟩
  · rintro ⟨name, next, behind, hname, hnew, hvalue, h⟩
    have hread := (member.readName_eq_ok_iff text).mpr ⟨hname, hnew, rfl⟩
    split
    · rename_i hfault
      rw [hread] at hfault
      cases hfault
    · rename_i name' value hread'
      rw [hread] at hread'
      obtain ⟨rfl, rfl⟩ := Prod.mk.inj (Except.ok.inj hread')
      split
      · rename_i hfault
        rw [hvalue] at hfault
        cases hfault
      · rename_i next' behind' hvalue'
        rw [hvalue] at hvalue'
        obtain ⟨rfl, rfl⟩ := Prod.mk.inj (Except.ok.inj hvalue')
        exact h

/-! What can be read. -/

/-- The values that a setting can have, as they are written. -/
def Admits (name : SettingName) (value : Text) : Prop :=
  if name = .warnings then ∃ flag, value = boolText flag else IsNumber value

def FiniteNumbers (given : GivenSettings) : Prop := ∀ name, ∀ x ∈ given.number? name, x.isFinite = true

theorem readSetting_number (hname : name ≠ .warnings) :
    readSetting given name text =
      (readBinary64 text).map fun read => (given.withNumber name read.1, read.2) := by
  cases name with
  | warnings => exact absurd rfl hname
  | minWidth | maxWidth | baseFontSize => rfl

/-- What is read for a setting is a value of it, and nothing else is given by that. -/
theorem exists_of_readSetting (h : readSetting given name text = .ok (next, rest)) :
    ∃ (blanks : Blanks) (value : Text), text = blanks.text ++ (value ++ rest) ∧ Admits name value ∧
      (∀ other, next.has other = (decide (other = name) || given.has other)) ∧
      (FiniteNumbers given → FiniteNumbers next) := by
  by_cases hname : name = .warnings
  · subst hname
    obtain ⟨⟨flag, behind⟩, hread, heq⟩ := exists_of_map_eq_ok h
    obtain ⟨rfl, rfl⟩ := Prod.mk.inj heq
    obtain ⟨blanks, rfl⟩ := readBool_eq_ok_iff.mp hread
    refine ⟨blanks, boolText flag, rfl, ⟨flag, rfl⟩, fun other => ?_, fun hgiven other => ?_⟩
    · cases other <;> rfl
    · have hother := hgiven other
      cases other <;> exact hother
  · rw [readSetting_number hname] at h
    obtain ⟨⟨x, behind⟩, hread, heq⟩ := exists_of_map_eq_ok h
    obtain ⟨rfl, rfl⟩ := Prod.mk.inj heq
    obtain ⟨blanks, number, htext, hnumber, hfinite⟩ := exists_isNumber_of_readBinary64 hread
    refine ⟨blanks, number, htext, ?_, GivenSettings.has_withNumber hname, fun hgiven other y hy => ?_⟩
    · rwa [Admits, if_neg hname]
    · rw [GivenSettings.number?_withNumber hname] at hy
      split at hy
      · rwa [← Option.some.inj hy]
      · exact hgiven other y hy

/-- The members have names of settings that have not been given, each once. -/
structure NewNames (given : GivenSettings) (members : List Member) : Prop where
  distinct : (members.map Member.name).Nodup
  new : ∀ member ∈ members, ∃ name, SettingName.text name = member.name ∧ given.has name = false

theorem newNames_nil : NewNames given [] := ⟨List.nodup_nil, List.forall_mem_nil _⟩

/-- A member with a new name in front of members that are new once it has been given. -/
theorem NewNames.cons {member : Member} {members : List Member} (h : NewNames next members)
    (hname : name.text = member.name) (hnew : given.has name = false)
    (hhas : ∀ other, next.has other = (decide (other = name) || given.has other)) :
    NewNames given (member :: members) := by
  constructor
  · rw [List.map_cons, List.nodup_cons]
    refine ⟨fun hmem => ?_, h.distinct⟩
    obtain ⟨same, hsame, heq⟩ := List.mem_map.mp hmem
    obtain ⟨other, hother, hnot⟩ := h.new same hsame
    rw [hhas, Bool.or_eq_false_iff, decide_eq_false_iff_not] at hnot
    exact hnot.1 (SettingName.text_injective (hother.trans (heq.trans hname.symm)))
  · rw [List.forall_mem_cons]
    refine ⟨⟨name, hname, hnew⟩, fun behind hbehind => ?_⟩
    obtain ⟨other, hother, hnot⟩ := h.new behind hbehind
    rw [hhas, Bool.or_eq_false_iff] at hnot
    exact ⟨other, hother, hnot.2⟩

end Json
end FluidSizing

import FluidSizing.Proofs.Fluid.SettingsText

/-! Objects of settings are read as they are written. The members are read one by one, each where the one
before it ends (`readMembers_entries`), so that the settings are the defaults but for what the members give
(`Overridden.complete`), unless one of their numbers is negative (`Overridden.negative?`). Members that have
been read have names of settings, each once, whatever their values are (`newNames_of_readMembers`). -/

namespace FluidSizing

namespace Settings

/-- A setting and what it is set to: a truth value, or a whole number of up to 53 bits. -/
inductive Entry where
  | warnings (flag : Bool)
  | number (name : SettingName) (isNumber : name ≠ .warnings) (n : Int) (small : |n| < 2 ^ 53)

namespace Entry

def name : Entry → SettingName
  | warnings _ => .warnings
  | number name .. => name

def text : Entry → Text
  | warnings flag => Json.boolText flag
  | number _ _ n _ => Json.showInteger n

def number? : Entry → Option Int
  | warnings _ => none
  | number _ _ n _ => some n

def Holds (settings : Settings) : Entry → Prop
  | warnings flag => settings.warnings = flag
  | number name _ n _ => ∃ x, settings.number? name = some x ∧ Json.IsInteger n x

def give (given : GivenSettings) : Entry → GivenSettings
  | warnings flag => { given with warnings := some flag }
  | number name _ n _ => given.withNumber name (Json.Number.integer n).toBinary64

end Entry

/-- The defaults but for what the entries give. -/
structure Overridden (entries : List Entry) (settings : Settings) : Prop where
  given : ∀ entry ∈ entries, entry.Holds settings
  warnings : .warnings ∉ entries.map Entry.name → settings.warnings = Settings.default.warnings
  number : ∀ name ∉ entries.map Entry.name, settings.number? name = Settings.default.number? name

/-- The entry of the first setting, in the order of a list, that is given a negative number. -/
structure FirstNegative (entries : List Entry) (entry : Entry) (n : Int) : Prop where
  mem : entry ∈ entries
  number : entry.number? = some n
  negative : n < 0
  first : ∀ other ∈ entries, other.name.Before entry.name → ∀ m ∈ other.number?, 0 ≤ m

end Settings

namespace Json

open Settings (Entry)

/-- A member that is written for an entry. -/
structure Member.Gives (member : Member) (entry : Entry) : Prop where
  name : member.name = entry.name.text
  value : member.value = entry.text

variable {first : Bool} {given result : GivenSettings} {rest rest' : Text} {members : List Member}
  {entries : List Entry}

/-! What stands behind a value. -/

theorem endsNumber_append (blanks : Blanks) (h : EndsNumber rest) : EndsNumber (blanks.text ++ rest) := by
  intro c hc
  cases hblanks : blanks.text with
  | nil =>
      rw [hblanks] at hc
      exact h c hc
  | cons d text =>
      have hd := blanks.isBlank d (by rw [hblanks]; exact List.mem_cons_self)
      rw [hblanks] at hc
      obtain rfl := Option.some.inj hc
      simp only [isBlank, Bool.or_eq_true, decide_eq_true_eq] at hd
      rcases hd with ((rfl | rfl) | rfl) | rfl <;> decide

/-- A comma or a bracket stands behind a member. -/
theorem Member.endsNumber (member : Member) (members : List Member) (rest : Text) :
    EndsNumber (member.behind.text ++ separated false (members.map Member.source) ('\x7d' :: rest)) := by
  refine endsNumber_append member.behind fun c hc => ?_
  cases members with
  | nil =>
      obtain rfl := Option.some.inj hc
      decide
  | cons next members =>
      obtain rfl := Option.some.inj hc
      decide

theorem IsInteger.isLess_zero {n : Int} {x : Binary64} (h : IsInteger n x) :
    x.isLess (Binary64.zero false) = decide (n < 0) := by
  obtain ⟨fits, rfl⟩ := h
  have hpos : (0 : Int) < Binary64.one := Int.natCast_pos.mpr Binary64.one_pos
  have hsigned : Binary64.signed (n < 0) (n.natAbs * Binary64.one) = n * Binary64.one := by
    rw [Binary64.signed, Nat.cast_mul, Int.natCast_natAbs]
    split
    · rename_i hneg
      rw [abs_of_neg (of_decide_eq_true hneg), neg_mul, neg_neg]
    · rename_i hnonneg
      rw [abs_of_nonneg (not_lt.mp fun hneg => hnonneg (decide_eq_true hneg))]
  rw [Binary64.zero, Binary64.isLess, decide_eq_decide, hsigned]
  change n * Binary64.one < 0 ↔ n < 0
  rw [← not_le, ← not_le, mul_nonneg_iff_of_pos_right hpos]

/-! Members that give settings. -/

theorem readSetting_entry (given : GivenSettings) (entry : Entry) (blanks : Blanks)
    (hrest : EndsNumber rest) :
    readSetting given entry.name (blanks.text ++ (entry.text ++ rest)) = .ok (entry.give given, rest) := by
  cases entry with
  | warnings flag =>
      have hread : readBool (blanks.text ++ (boolText flag ++ rest)) = .ok (flag, rest) :=
        readBool_eq_ok_iff.mpr ⟨blanks, rfl⟩
      rw [Entry.name, Entry.text, readSetting, hread]
      rfl
  | number name isNumber n small =>
      have hread : readBinary64 (blanks.text ++ (showInteger n ++ rest)) =
          .ok ((Number.integer n).toBinary64, rest) :=
        ((isNumber_showInteger n).readBinary64_eq_ok_iff blanks).mpr
          ⟨_, readNumber_showInteger small hrest, rfl⟩
      rw [Entry.name, Entry.text, readSetting_number isNumber, hread]
      rfl

theorem has_give (given : GivenSettings) (entry : Entry) (name : SettingName) :
    (entry.give given).has name = (decide (name = entry.name) || given.has name) := by
  cases entry with
  | warnings flag => cases name <;> rfl
  | number name' isNumber n small => exact GivenSettings.has_withNumber isNumber name

/-- Members are read to their end, and what they give is added. -/
theorem readMembers_entries (h : List.Forall₂ Member.Gives members entries)
    (hdistinct : (entries.map Entry.name).Nodup)
    (hnew : ∀ entry ∈ entries, given.has entry.name = false) (blanks : Blanks) :
    readMembers first given
        (blanks.text ++ separated first (members.map Member.source) ('\x7d' :: rest)) =
      .ok (entries.foldl Entry.give given, rest) := by
  induction h generalizing first given blanks with
  | nil => exact readMembers_closing blanks
  | @cons member entry members entries hgives h ih =>
      obtain ⟨hentry, hdistinct⟩ := List.nodup_cons.mp hdistinct
      obtain ⟨hfirst, hothers⟩ := List.forall_mem_cons.mp hnew
      have hread := readSetting_entry given entry member.beforeValue (member.endsNumber members rest)
      rw [← hgives.value] at hread
      refine (member.readMembers_eq_ok_iff blanks).mpr
        ⟨_, _, _, hgives.name.symm, hfirst, hread, ih hdistinct (fun other hother => ?_) member.behind⟩
      rw [has_give, hothers other hother, Bool.or_false, decide_eq_false_iff_not]
      rintro hsame
      exact hentry (hsame ▸ List.mem_map_of_mem hother)

/-! Members of any kind. -/

/-- What is read for a setting is all of its value. -/
theorem rest_eq_of_readSetting {name : SettingName} {next : GivenSettings} {value : Text} (blanks : Blanks)
    (h : IsValueLike value) (hrest : EndsNumber rest)
    (hread : readSetting given name (blanks.text ++ (value ++ rest)) = .ok (next, rest')) :
    rest' = rest := by
  by_cases hname : name = .warnings
  · subst hname
    obtain ⟨⟨flag, behind⟩, hflag, heq⟩ := exists_of_map_eq_ok hread
    obtain ⟨rfl, rfl⟩ := Prod.mk.inj heq
    exact rest_eq_of_readBool blanks h hflag
  · rw [readSetting_number hname] at hread
    obtain ⟨⟨x, behind⟩, hnumber, heq⟩ := exists_of_map_eq_ok hread
    obtain ⟨rfl, rfl⟩ := Prod.mk.inj heq
    exact rest_eq_of_readBinary64 blanks h hrest hnumber

/-- Members that have been read have new names. -/
theorem newNames_of_readMembers (hvalues : ∀ member ∈ members, IsValueLike member.value) (blanks : Blanks)
    (h : readMembers first given
      (blanks.text ++ separated first (members.map Member.source) ('\x7d' :: rest)) = .ok (result, rest')) :
    NewNames given members := by
  induction members generalizing first given blanks with
  | nil => exact newNames_nil
  | cons member members ih =>
      obtain ⟨hvalue, hvalues⟩ := List.forall_mem_cons.mp hvalues
      obtain ⟨name, next, behind, hname, hnew, hread, hmembers⟩ :=
        (member.readMembers_eq_ok_iff blanks).mp h
      obtain rfl := rest_eq_of_readSetting member.beforeValue hvalue (member.endsNumber members rest) hread
      obtain ⟨-, -, -, -, hhas, -⟩ := exists_of_readSetting hread
      exact (ih hvalues member.behind hmembers).cons hname hnew hhas

end Json

/-! What entries give. -/

namespace Settings

namespace Entry

variable {entry other : Entry} {entries : List Entry} {given : GivenSettings}

def IsGiven (given : GivenSettings) : Entry → Prop
  | warnings flag => given.warnings = some flag
  | number name _ n _ => given.number? name = some (Json.Number.integer n).toBinary64

theorem isGiven_give (given : GivenSettings) (entry : Entry) : entry.IsGiven (entry.give given) := by
  cases entry with
  | warnings flag => rfl
  | number name isNumber n small => exact (GivenSettings.number?_withNumber isNumber name).trans (if_pos rfl)

theorem IsGiven.give (h : entry.IsGiven given) (hne : entry.name ≠ other.name) :
    entry.IsGiven (other.give given) := by
  cases other with
  | warnings flag' =>
      cases entry with
      | warnings flag => exact absurd rfl hne
      | number name isNumber n small =>
          cases name with
          | warnings => exact absurd rfl isNumber
          | minWidth | maxWidth | baseFontSize => exact h
  | number name' isNumber' n' small' =>
      cases entry with
      | warnings flag =>
          cases name' with
          | warnings => exact absurd rfl isNumber'
          | minWidth | maxWidth | baseFontSize => exact h
      | number name isNumber n small =>
          exact (GivenSettings.number?_withNumber isNumber' name).trans ((if_neg hne).trans h)

theorem IsGiven.foldl (h : entry.IsGiven given) (hne : ∀ other ∈ entries, entry.name ≠ other.name) :
    entry.IsGiven (entries.foldl Entry.give given) := by
  induction entries generalizing given with
  | nil => exact h
  | cons other entries ih =>
      obtain ⟨hother, hothers⟩ := List.forall_mem_cons.mp hne
      exact ih (h.give hother) hothers

theorem isGiven_foldl (hdistinct : (entries.map Entry.name).Nodup) :
    ∀ entry ∈ entries, entry.IsGiven (entries.foldl Entry.give given) := by
  induction entries generalizing given with
  | nil => simp
  | cons entry entries ih =>
      obtain ⟨hentry, hdistinct⟩ := List.nodup_cons.mp hdistinct
      refine List.forall_mem_cons.mpr ⟨?_, ih hdistinct⟩
      refine (isGiven_give given entry).foldl fun other hother hsame => ?_
      exact hentry (hsame ▸ List.mem_map_of_mem hother)

theorem has_foldl {name : SettingName} (hname : name ∉ entries.map Entry.name) :
    (entries.foldl Entry.give given).has name = given.has name := by
  induction entries generalizing given with
  | nil => rfl
  | cons entry entries ih =>
      rw [List.map_cons, List.mem_cons, not_or] at hname
      rw [List.foldl_cons, ih hname.2, Json.has_give, decide_eq_false hname.1, Bool.false_or]

theorem IsGiven.holds (h : entry.IsGiven given) : entry.Holds given.complete := by
  cases entry with
  | warnings flag =>
      have hflag : given.warnings = some flag := h
      rw [Holds, GivenSettings.complete, hflag]
      rfl
  | number name isNumber n small =>
      have hnumber : given.number? name = some (Json.Number.integer n).toBinary64 := h
      refine ⟨_, ?_, Json.isInteger_toBinary64 small.le⟩
      rw [Settings.number?_complete, hnumber, Option.some_or]

end Entry

namespace Overridden

open Binary64 (zero)

variable {entries : List Entry} {entry : Entry} {settings : Settings} {name : SettingName} {x : Binary64}
  {n : Int}

/-- The settings that entries give are the defaults but for them. -/
theorem complete (hdistinct : (entries.map Entry.name).Nodup) :
    Overridden entries (entries.foldl Entry.give {}).complete := by
  obtain ⟨given, hgiven⟩ : ∃ given, given = entries.foldl Entry.give {} := ⟨_, rfl⟩
  have hnone : ∀ name ∉ entries.map Entry.name, given.has name = false := by
    intro name hname
    rw [hgiven, Entry.has_foldl hname]
    cases name <;> rfl
  rw [← hgiven]
  constructor
  · intro entry hentry
    exact (hgiven ▸ Entry.isGiven_foldl hdistinct entry hentry : entry.IsGiven given).holds
  · intro hname
    have hwarnings : given.warnings = none :=
      Option.not_isSome_iff_eq_none.mp (Bool.eq_false_iff.mp (hnone .warnings hname))
    rw [GivenSettings.complete, hwarnings]
    rfl
  · intro name hname
    have hnumber : given.number? name = none := GivenSettings.number?_of_has (hnone name hname)
    rw [Settings.number?_complete, hnumber, Option.none_or]

theorem exists_number (h : Overridden entries settings) (hentry : entry ∈ entries)
    (hn : entry.number? = some n) : ∃ x, settings.number? entry.name = some x ∧ Json.IsInteger n x := by
  have hholds := h.given entry hentry
  cases entry with
  | warnings flag => cases hn
  | number name isNumber m small =>
      obtain rfl := Option.some.inj hn
      exact hholds

theorem exists_entry (h : Overridden entries settings) (hx : settings.number? name = some x)
    (hless : x.isLess (zero false) = true) :
    ∃ entry ∈ entries, entry.name = name ∧ ∃ n, entry.number? = some n ∧ Json.IsInteger n x := by
  by_cases hname : name ∈ entries.map Entry.name
  · obtain ⟨entry, hentry, rfl⟩ := List.mem_map.mp hname
    refine ⟨entry, hentry, rfl, ?_⟩
    have hholds := h.given entry hentry
    cases entry with
    | warnings flag => cases hx
    | number name isNumber n small =>
        obtain ⟨y, hy, hinteger⟩ := hholds
        rw [Entry.name, hy] at hx
        exact ⟨n, rfl, Option.some.inj hx ▸ hinteger⟩
  · rw [h.number name hname] at hx
    obtain ⟨hfinite, hnonneg⟩ := Settings.number?_default hx
    rw [Binary64.isLess_zero hfinite, decide_eq_true_iff] at hless
    exact absurd hnonneg (not_le.mpr hless)

/-- A negative number is found if there is one, the first of them. -/
theorem negative? (h : Overridden entries settings) :
    (settings.negative? = none ∧ ∀ entry ∈ entries, ∀ n ∈ entry.number?, 0 ≤ n) ∨
      ∃ entry n x, FirstNegative entries entry n ∧ Json.IsInteger n x ∧
        settings.negative? = some (entry.name, x) := by
  cases hnegative : settings.negative? with
  | none =>
      refine .inl ⟨rfl, fun entry hentry n hn => ?_⟩
      obtain ⟨x, hx, hinteger⟩ := h.exists_number hentry hn
      have hless := Settings.negative?_eq_none_iff.mp hnegative entry.name x hx
      rw [hinteger.isLess_zero, decide_eq_false_iff_not, not_lt] at hless
      exact hless
  | some found =>
      obtain ⟨name, x⟩ := found
      obtain ⟨hx, hless, hfirst⟩ := Settings.negative?_eq_some hnegative
      obtain ⟨entry, hentry, rfl, n, hn, hinteger⟩ := h.exists_entry hx hless
      rw [hinteger.isLess_zero, decide_eq_true_iff] at hless
      refine .inr ⟨entry, n, x, ⟨hentry, hn, hless, fun other hother hbefore m hm => ?_⟩, hinteger, rfl⟩
      obtain ⟨y, hy, hinteger'⟩ := h.exists_number hother hm
      have hless' := hfirst other.name hbefore y hy
      rw [hinteger'.isLess_zero, decide_eq_false_iff_not, not_lt] at hless'
      exact hless'

end Overridden

end Settings

/-! Whole objects. -/

namespace Json

open Settings (Entry)

variable {lead inner trail : Blanks} {members front behind : List Member} {given : GivenSettings}
  {entries : List Entry}

theorem readGiven_objectText :
    readGiven (objectText lead inner members trail) =
      readMembers true {}
        (inner.text ++ separated true (members.map Member.source) ('\x7d' :: trail.text)) := by
  rw [objectText, readGiven, lead.skipBlanks_append, skipBlanks_cons rfl]
  rfl

theorem skipBlanks_text (blanks : Blanks) : skipBlanks blanks.text = [] := by
  rw [← List.append_nil blanks.text, blanks.skipBlanks_append]
  rfl

/-- An object of entries gives what they give. -/
theorem readWhole_entries (h : List.Forall₂ Member.Gives members entries)
    (hdistinct : (entries.map Entry.name).Nodup) :
    readWhole (objectText lead inner members trail) = .ok (entries.foldl Entry.give {}) := by
  have hnew : ∀ entry ∈ entries, GivenSettings.has {} entry.name = false := by
    rintro entry -
    cases entry.name <;> rfl
  rw [readWhole, readGiven_objectText, readMembers_entries h hdistinct hnew]
  dsimp only
  rw [skipBlanks_text]

theorem Member.Gives.isValueLike {member : Member} {entry : Entry} (h : member.Gives entry) :
    IsValueLike member.value := by
  rw [h.value]
  cases entry with
  | warnings flag => exact .bool flag
  | number name isNumber n small => exact .number (isNumber_showInteger n)

theorem isValueLike_of_gives (h : List.Forall₂ Member.Gives members entries) :
    ∀ member ∈ members, IsValueLike member.value := by
  induction h with
  | nil => simp
  | cons hgives _ ih => exact List.forall_mem_cons.mpr ⟨hgives.isValueLike, ih⟩

/-- An object with a name that is no setting's, or with one twice, is refused. -/
theorem exists_fault_of_names (hvalues : ∀ member ∈ members, IsValueLike member.value)
    (hnames : (∃ member ∈ members, ∀ name, SettingName.text name ≠ member.name) ∨
      ¬ (members.map Member.name).Nodup) :
    ∃ fault, readWhole (objectText lead inner members trail) = .error fault := by
  rw [readWhole, readGiven_objectText]
  split
  · rename_i fault hread
    exact ⟨fault, rfl⟩
  · rename_i given rest hread
    exfalso
    have hnew := newNames_of_readMembers hvalues inner hread
    rcases hnames with ⟨member, hmember, hunknown⟩ | hrepeated
    · obtain ⟨name, hname, -⟩ := hnew.new member hmember
      exact hunknown name hname
    · exact hrepeated hnew.distinct

end Json

/-- A message about a negative number starts with the name of its setting. -/
theorem SettingsError.text_prefix_message (name : SettingName) (x : Binary64) :
    name.text <+: (SettingsError.negative name x).message := by
  rw [message, chain, List.intercalate_singleton]
  exact (List.prefix_append _ _).trans (List.prefix_append _ _)

namespace Settings

open Json (Blanks Member objectText)

/-- An object of settings, each at most once, is read as it is written: the settings are the defaults but for
what it gives, unless one of its numbers is negative. With one more member it is refused, if the name of that
is no setting's or is there already. -/
theorem ofText_objectText {lead inner trail : Blanks} {members : List Member} {entries : List Entry}
    (hmembers : List.Forall₂ Member.Gives members entries)
    (hdistinct : (entries.map Entry.name).Nodup) :
    ((∀ entry ∈ entries, ∀ n ∈ entry.number?, 0 ≤ n) ∧
        (∃ settings, ofText (objectText lead inner members trail) = .ok settings ∧
          Overridden entries settings) ∨
      ∃ entry n x, FirstNegative entries entry n ∧ Json.IsInteger n x ∧
        ofText (objectText lead inner members trail) = .error (.negative entry.name x) ∧
        entry.name.text <+: (SettingsError.negative entry.name x).message) ∧
    ∀ front extra behind, members = front ++ behind → Json.IsValueLike extra.value →
      (∀ name, SettingName.text name ≠ extra.name) ∨ extra.name ∈ members.map Member.name →
      ∃ message, ofText (objectText lead inner (front ++ extra :: behind) trail) =
        .error (.invalid message) := by
  constructor
  · have hoverridden := Overridden.complete hdistinct
    rw [ofText, Json.readWhole_entries hmembers hdistinct]
    dsimp only
    rcases hoverridden.negative? with ⟨hnone, hnonneg⟩ | ⟨entry, n, x, hfirst, hinteger, hsome⟩
    · rw [hnone]
      exact .inl ⟨hnonneg, _, rfl, hoverridden⟩
    · rw [hsome]
      exact .inr ⟨entry, n, x, hfirst, hinteger, rfl, SettingsError.text_prefix_message entry.name x⟩
  · rintro front extra behind rfl hvalue hname
    have hvalues : ∀ member ∈ front ++ extra :: behind, Json.IsValueLike member.value := by
      have hgiven := Json.isValueLike_of_gives hmembers
      rw [List.forall_mem_append] at hgiven ⊢
      exact ⟨hgiven.1, List.forall_mem_cons.mpr ⟨hvalue, hgiven.2⟩⟩
    have hnames : (∃ member ∈ front ++ extra :: behind, ∀ name, SettingName.text name ≠ member.name) ∨
        ¬ ((front ++ extra :: behind).map Member.name).Nodup := by
      rcases hname with hunknown | hrepeated
      · exact .inl ⟨extra, by simp, hunknown⟩
      · refine .inr ?_
        rw [List.map_append, List.map_cons, List.nodup_middle, List.nodup_cons, ← List.map_append]
        exact fun h => h.1 hrepeated
    obtain ⟨fault, hfault⟩ :
        ∃ fault, Json.readWhole (objectText lead inner (front ++ extra :: behind) trail) = .error fault :=
      Json.exists_fault_of_names hvalues hnames
    rw [ofText, hfault]
    exact ⟨_, rfl⟩

/-- The number that is refused is the first in the order of the settings, not of the text. -/
theorem ofText_objectText_negative :
    (∃ x, Json.IsInteger (-1) x ∧
      ofText " \x7b\"maxWidth\": -2,\"minWidth\" :-1\x7d\n".toList = .error (.negative .minWidth x)) ∧
    ∃ message, ofText " \x7b\"maxWidth\": -2,\"minWidth\":null,\"minWidth\" :-1\x7d\n".toList =
      .error (.invalid message) := by
  let space : Blanks := ⟨[' '], List.forall_mem_singleton.mpr rfl⟩
  let newline : Blanks := ⟨['\n'], List.forall_mem_singleton.mpr rfl⟩
  let maxWidth : Member := ⟨.none, SettingName.maxWidth.text, SettingName.maxWidth.text,
    .of_plain (by decide), .none, space, "-2".toList, .none⟩
  let minWidth : Member := ⟨.none, SettingName.minWidth.text, SettingName.minWidth.text,
    .of_plain (by decide), space, .none, "-1".toList, .none⟩
  let extra : Member := ⟨.none, SettingName.minWidth.text, SettingName.minWidth.text,
    .of_plain (by decide), .none, .none, "null".toList, .none⟩
  let entries : List Entry := [.number .maxWidth (by decide) (-2) (by decide),
    .number .minWidth (by decide) (-1) (by decide)]
  have hmembers : List.Forall₂ Member.Gives [maxWidth, minWidth] entries :=
    .cons ⟨rfl, rfl⟩ (.cons ⟨rfl, rfl⟩ .nil)
  obtain ⟨hresult, hextra⟩ := @ofText_objectText space .none newline [maxWidth, minWidth] entries hmembers
    (by decide)
  constructor
  · rcases hresult with ⟨hnonneg, -⟩ | ⟨entry, n, x, hfirst, hinteger, herror, -⟩
    · exact absurd (hnonneg _ List.mem_cons_self (-2) rfl) (by decide)
    · rcases List.mem_cons.mp hfirst.mem with rfl | hmem
      · exact absurd (hfirst.first _ (.tail _ (.head _)) (by decide) (-1) rfl) (by decide)
      · obtain rfl := List.mem_singleton.mp hmem
        obtain rfl : -1 = n := Option.some.inj hfirst.number
        exact ⟨x, hinteger, herror⟩
  · exact hextra [maxWidth] extra [minWidth] rfl (.other (.inl rfl)) (.inr (by decide))

end Settings

end FluidSizing

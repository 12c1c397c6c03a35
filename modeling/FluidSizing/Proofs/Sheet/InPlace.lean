import FluidSizing.Proofs.Sheet.RawValue

/-! Resolved values in place. A value is cut out of the sheet and read alone, and its new text is read in
the sheet again. Where it leaves no call open, its calls end with a parenthesis, so the component values
up to the last of them are the same in both readings (`InPlace.changed_of_closed`). A value can leave a
call open only at the end of the sheet, and there no text without semicolons and closing curly brackets
ends the declaration (`Whole`). Either way the new raw value ends where the old one did
(`RawValue.inPlace_resolved`). -/

namespace FluidSizing

namespace Token

/-- A semicolon is a token of one character. -/
theorem StandsBefore.text_of_semicolon {t : Token} {rest : Text} (h : t.StandsBefore rest)
    (hkind : t.kind = .semicolon) : t.text = [';'] := by
  obtain ⟨c, more, htext, hscan⟩ := h
  rw [hkind] at hscan
  obtain ⟨read, hread, heq⟩ := exists_reader_eq c (more ++ rest)
  rw [heq] at hscan
  cases hread with
  | quote =>
      have hscan := congrArg Prod.fst hscan
      simp only [scanString] at hscan
      split at hscan
      · cases hscan
      · split at hscan <;> cases hscan
  | named =>
      have hscan := congrArg Prod.fst hscan
      simp only [scanNamed] at hscan
      split at hscan
      · split at hscan <;> cases hscan
      · cases hscan
  | single =>
      obtain ⟨hsingle, hlength⟩ := Prod.mk.inj hscan
      have hc := charKind c
      rw [hsingle] at hc
      cases hc with
      | semicolon hc => rw [htext, hc, List.length_eq_zero_iff.mp hlength.symm]
  | _ => cases hscan

theorem standsBefore_semicolon (rest : Text) : StandsBefore ⟨.semicolon, [';']⟩ rest :=
  ⟨';', [], rfl, rfl⟩

end Token

open Component (Stands Changed sources ofText blanks)
open Token (Near)

namespace Component

/-- Whether a component value of a block ends the value of a declaration: a semicolon, or the bracket that
closes the block. -/
def endsValue : Component → Bool
  | token t => t.kind = .semicolon || t.kind = .closing .curly
  | block .. => false

variable {post : Text} {cs cs' : List Component}

/-- Component values that end no value stand in a block. -/
theorem Stands.inBlock (h : Stands none post cs) (hcs : ∀ c ∈ cs, c.endsValue = false) :
    Stands (some .curly) post cs := by
  refine h.enclose fun t ht => ?_
  have hflat := h.isFlat_of_mem t ht
  have hends := hcs _ ht
  cases hkind : t.kind with
  | function => rw [hkind] at hflat; cases hflat
  | opening => rw [hkind] at hflat; cases hflat
  | closing bracket =>
      cases bracket with
      | curly => simp [endsValue, hkind] at hends
      | _ => rfl
  | _ => rfl

theorem endsValue_of_changed (h : List.Forall₂ Changed cs cs') (hcs : ∀ c ∈ cs, c.endsValue = false) :
    ∀ c ∈ cs', c.endsValue = false := by
  induction h with
  | nil => simp
  | cons hc _ ih =>
      obtain ⟨hends, hcs⟩ := List.forall_mem_cons.mp hcs
      refine List.forall_mem_cons.mpr ⟨?_, ih hcs⟩
      cases hc with
      | refl => exact hends
      | block => rfl

theorem endsValue_blanks (text : Text) : ∀ c ∈ blanks text, c.endsValue = false := by
  cases text <;> simp [blanks, endsValue]

/-- A token that ends a value is one character, whatever stands around it. -/
theorem exists_cut {text : Text} {c : Component} (hmem : c ∈ ofText text) (hc : c.endsValue = true) :
    ∃ (front : List Component) (cut : Char) (rest : Text), text = sources front ++ cut :: rest ∧
      (cut = ';' ∨ cut = '\x7d') ∧
      ∀ other, c ∈ ofText (sources front ++ cut :: other) := by
  cases c with
  | block => cases hc
  | token t =>
      obtain ⟨front, back, hsplit⟩ := List.append_of_mem hmem
      have hstands := stands_ofText text
      rw [hsplit] at hstands
      obtain ⟨hfront, hback⟩ := stands_append.mp hstands
      have htoken : ∃ cut, t.text = [cut] ∧ (cut = ';' ∨ cut = '\x7d') ∧ Token.isFence cut = true ∧
          ∀ other, t.StandsBefore other := by
        cases hback with
        | token stands _ _ =>
            rw [endsValue, Bool.or_eq_true, decide_eq_true_eq, decide_eq_true_eq] at hc
            obtain ⟨kind, written⟩ := t
            rcases hc with hkind | hkind
            · obtain rfl : kind = .semicolon := hkind
              obtain rfl : written = [';'] := stands.text_of_semicolon rfl
              exact ⟨';', rfl, Or.inl rfl, by decide, Token.standsBefore_semicolon⟩
            · obtain rfl : kind = .closing .curly := hkind
              obtain rfl : written = ['\x7d'] := stands.wellSpelled
              exact ⟨'\x7d', rfl, Or.inr rfl, by decide, Token.standsBefore_close .curly⟩
      obtain ⟨cut, htext, hcut, hfence, hany⟩ := htoken
      refine ⟨front, cut, sources back, ?_, hcut, fun other => ?_⟩
      · rw [← source_ofText text, hsplit]
        simp [source, htext]
      · have hflat : t.kind.isFlat none = true := (stands_ofText text).isFlat_of_mem t hmem
        have hcutoff : Stands none other [token t] := .token (hany _) hflat (.nil _ _)
        have hbefore : Stands none (cut :: other) front := by
          rw [sources_cons, source, htext, List.append_nil] at hfront
          exact hfront.near (.fenced [] hfence hfence (List.cons_ne_nil _ _))
        have hread := hcutoff.ofText_append
        simp only [sources_cons, sources_nil, source, htext, List.append_nil,
          List.singleton_append] at hread
        rw [hbefore.ofText_append, hread]
        simp

end Component

/-- In a block the text is all of a value: nothing in it ends a declaration or the block. -/
def Whole (text : Text) : Prop := ∀ c ∈ ofText text, c.endsValue = false

namespace Whole

variable {text more : Text}

theorem of_append (h : Whole (text ++ more)) : Whole text := by
  intro c hc
  by_contra hends
  rw [Bool.not_eq_false] at hends
  obtain ⟨front, cut, rest, htext, -, hread⟩ := Component.exists_cut hc hends
  have hmem := hread (rest ++ more)
  rw [← List.cons_append, ← List.append_assoc, ← htext] at hmem
  rw [h c hmem] at hends
  cases hends

/-- Text without semicolons and closing curly brackets ends nothing. -/
theorem append (h : Whole text) (hmore : ∀ c ∈ more, c ≠ ';' ∧ c ≠ '\x7d') : Whole (text ++ more) := by
  intro c hc
  by_contra hends
  rw [Bool.not_eq_false] at hends
  obtain ⟨front, cut, rest, htext, hcut, hread⟩ := Component.exists_cut hc hends
  have hinside : ∃ behind, text = sources front ++ cut :: behind := by
    rcases List.append_eq_append_iff.mp htext with ⟨others, hfront, hothers⟩ | ⟨others, htext, hothers⟩
    · have hmem : cut ∈ more := hothers ▸ by simp
      rcases hcut with rfl | rfl
      · exact absurd rfl (hmore _ hmem).1
      · exact absurd rfl (hmore _ hmem).2
    · cases others with
      | nil =>
          have hmem : cut ∈ more := by
            rw [List.nil_append] at hothers
            exact hothers ▸ List.mem_cons_self
          rcases hcut with rfl | rfl
          · exact absurd rfl (hmore _ hmem).1
          · exact absurd rfl (hmore _ hmem).2
      | cons d others =>
          obtain ⟨rfl, -⟩ := List.cons.inj hothers
          exact ⟨others, htext⟩
  obtain ⟨behind, hbehind⟩ := hinside
  have hmem := hread behind
  rw [← hbehind] at hmem
  rw [h c hmem] at hends
  cases hends

/-- White space at the start of a text does not matter. -/
theorem blanks_append_iff {blank : Text} (hblank : ∀ c ∈ blank, Token.isBlank c = true)
    (htext : ∀ c ∈ text.head?, Token.isBlank c = false) : Whole (blank ++ text) ↔ Whole text := by
  rw [Whole, Component.ofText_blanks hblank htext, List.forall_mem_append]
  exact and_iff_right (Component.endsValue_blanks blank)

end Whole

namespace Component

variable {post : Text} {cs cs' : List Component}

/-- Of two ways to split component values that stand, the one with less text is the shorter one. -/
theorem exists_eq_append {front back front' back' : List Component}
    (h : Stands none post (front ++ back)) (heq : front ++ back = front' ++ back')
    (hle : (sources front').length ≤ (sources front).length) : ∃ behind, front = front' ++ behind := by
  rcases List.append_eq_append_iff.mp heq with ⟨more, rfl, rfl⟩ | ⟨more, hfront, -⟩
  · rw [sources_append, List.length_append] at hle
    have hnil : sources more = [] := List.length_eq_zero_iff.mp (by omega)
    obtain ⟨-, hmore⟩ := stands_append.mp h
    obtain ⟨hmore, -⟩ := stands_append.mp hmore
    exact ⟨[], by rw [hmore.eq_nil_of_sources hnil]; simp⟩
  · exact ⟨more, hfront⟩

/-- The last call or group of component values. -/
theorem exists_last_group (cs : List Component) :
    (∀ c ∈ cs, Value.isGroup c = false) ∨
      ∃ front group behind, cs = front ++ group :: behind ∧ Value.isGroup group = true ∧
        ∀ c ∈ behind, Value.isGroup c = false := by
  induction cs with
  | nil => simp
  | cons c cs ih =>
      rcases ih with hnone | ⟨front, group, behind, rfl, hgroup, hbehind⟩
      · cases hc : Value.isGroup c with
        | false => exact Or.inl (List.forall_mem_cons.mpr ⟨hc, hnone⟩)
        | true => exact Or.inr ⟨[], c, cs, rfl, hc, hnone⟩
      · exact Or.inr ⟨c :: front, group, behind, rfl, hgroup, hbehind⟩

theorem eq_of_changed (h : List.Forall₂ Changed cs cs') (hcs : ∀ c ∈ cs, Value.isGroup c = false) :
    cs' = cs := by
  induction h with
  | nil => rfl
  | cons hc _ ih =>
      obtain ⟨hgroup, hcs⟩ := List.forall_mem_cons.mp hcs
      rw [hc.eq_of_isGroup hgroup, ih hcs]

/-- The component values of a text without open calls, up to the last call, and what they are changed to.
Both end with a closed block, so both stand before any text; what is behind stays. -/
theorem exists_closed_front (hcs : Stands none [] cs) (hcs' : Stands none [] cs')
    (h : List.Forall₂ Changed cs cs') (hopen : openCalls cs = 0) :
    cs' = cs ∨ ∃ front front' back, cs = front ++ back ∧ cs' = front' ++ back ∧ front ≠ [] ∧
      List.Forall₂ Changed front front' ∧
      ∀ other, Stands none other front ∧ Stands none other front' := by
  rcases exists_last_group cs with hnone | ⟨before, group, back, rfl, hgroup, hback⟩
  · exact Or.inl (eq_of_changed h hnone)
  right
  obtain ⟨before', rest', hbefore, hrest, rfl⟩ : ∃ before' rest', List.Forall₂ Changed before before' ∧
      List.Forall₂ Changed (group :: back) rest' ∧ cs' = before' ++ rest' := by
    refine ⟨cs'.take before.length, cs'.drop before.length, ?_, ?_, (List.take_append_drop _ _).symm⟩
    · simpa using List.forall₂_take before.length h
    · simpa using List.forall₂_drop before.length h
  cases hrest with
  | @cons _ group' _ back' hgroup' hback' =>
      rw [eq_of_changed hback' hback] at hcs' ⊢
      have hclosed : ∀ c ∈ [group, group'], ∃ opening body, c = block opening body true := by
        have hflag := hcs.openCalls_eq_zero_iff.mp hopen group (by simp)
        intro c hc
        have hc : c.isOpenCall = false ∧ Value.isGroup c = true := by
          rcases List.mem_pair.mp hc with rfl | rfl
          · exact ⟨hflag, hgroup⟩
          · refine ⟨by rw [hgroup'.isOpenCall_eq, hflag], ?_⟩
            cases hgroup' with
            | refl => exact hgroup
            | block => exact hgroup
        cases c with
        | token => cases hc.2
        | block opening body closed =>
            obtain ⟨hclosed, hround⟩ := hc
            rw [isOpenCall, show decide (opening.brackets = .round) = true from hround] at hclosed
            simp only [Bool.true_and, Bool.not_eq_false'] at hclosed
            exact ⟨opening, body, by rw [hclosed]⟩
      obtain ⟨opening, body, rfl⟩ := hclosed group (by simp)
      obtain ⟨opening', body', rfl⟩ := hclosed group' (by simp)
      have hsplit : ∀ (x : List Component) (c : Component), x ++ c :: back = (x ++ [c]) ++ back := by
        simp
      rw [hsplit] at hcs hcs'
      refine ⟨before ++ [block opening body true], before' ++ [block opening' body' true], back,
        hsplit _ _, hsplit _ _, by simp, ?_, fun other => ⟨?_, ?_⟩⟩
      · exact List.rel_append hbefore (.cons hgroup' .nil)
      · exact (stands_append.mp hcs).1.of_closed_last
      · exact (stands_append.mp hcs').1.of_closed_last

/-- White space and component values that stand where they are read are read first, whatever is behind. -/
theorem exists_eq_blanks_append {lead behind : Text} {front rs : List Component}
    (hlead : ∀ c ∈ lead, Token.isBlank c = true)
    (hhead : ∀ c ∈ (sources front).head?, Token.isBlank c = false) (hne : sources front ≠ [])
    (hfront : Stands none (behind ++ post) front) (hrs : Stands none post rs)
    (hsources : sources rs = lead ++ sources front ++ behind) :
    ∃ others, rs = blanks lead ++ front ++ others ∧ sources others = behind := by
  have hblanks : Stands none (sources front ++ (behind ++ post)) (blanks lead) :=
    stands_blanks hlead (by rwa [List.head?_append_of_ne_nil _ hne])
  have hread := hblanks.ofText_append
  rw [hfront.ofText_append, sources_blanks] at hread
  have hsame := hrs.ofText_append
  have hboth : sources rs ++ post = lead ++ (sources front ++ (behind ++ post)) := by
    rw [hsources]
    simp
  rw [hboth, hread, ← List.append_assoc] at hsame
  have hall : Stands none [] (rs ++ ofText post) := by
    rw [stands_append, source_ofText, List.append_nil]
    exact ⟨hrs, stands_ofText post⟩
  obtain ⟨others, rfl⟩ := exists_eq_append hall hsame.symm (by
    rw [hsources, sources_append, sources_blanks]
    simp only [List.length_append]
    omega)
  refine ⟨others, rfl, ?_⟩
  simpa using hsources

end Component

/-- In a block before a text, and before any that differs from it behind a fence, this text is all of a
value. -/
def InPlace (post text : Text) : Prop :=
  ∃ cs, sources cs = text ∧ (∀ c ∈ cs, c.endsValue = false) ∧
    ∀ post', Near post post' → Stands (some .curly) post' cs

namespace InPlace

variable {post lead text behind : Text} {cs : List Component}

theorem of_stands (h : Stands (some .curly) post cs) (hcs : ∀ c ∈ cs, c.endsValue = false) :
    InPlace post (sources cs) := ⟨cs, rfl, hcs, fun _ hnear => h.near hnear⟩

/-- At the end of the sheet a value is what nothing in it ends. -/
theorem nil_iff : InPlace [] text ↔ Whole text := by
  constructor
  · rintro ⟨cs, rfl, hcs, hstands⟩
    rw [Whole, Component.ofText_sources (hstands [] (.refl [])).unenclosed]
    exact hcs
  · intro h
    refine ⟨ofText text, Component.source_ofText text, h, ?_⟩
    intro post' hnear
    obtain rfl := hnear.eq_nil
    exact (Component.stands_ofText text).inBlock h

/-- A value without open calls is changed in place, whatever stands behind it up to the end of the
declaration. -/
theorem changed_of_closed (h : InPlace post (lead ++ text ++ behind))
    (hlead : ∀ c ∈ lead, Token.isBlank c = true) (hhead : ∀ c ∈ text.head?, Token.isBlank c = false)
    (hcs : Stands none [] cs) (hchanged : List.Forall₂ Changed (ofText text) cs)
    (hopen : Token.openCalls text = 0) : InPlace post (lead ++ sources cs ++ behind) := by
  rw [← Component.openCalls_ofText] at hopen
  rcases Component.exists_closed_front (Component.stands_ofText text) hcs hchanged hopen with
    rfl | ⟨front, front', back, hfront, rfl, hne, hchanges, hany⟩
  · rwa [Component.source_ofText]
  obtain ⟨rs, hsources, hrs, hstands⟩ := h
  have htext : text = sources front ++ sources back := by
    rw [← Component.sources_append, ← hfront, Component.source_ofText]
  have hnonempty : sources front ≠ [] := fun hnil => hne ((hany []).1.eq_nil_of_sources hnil)
  have hstart : ∀ (c : Char), c ∈ (sources front).head? → Token.isBlank c = false := by
    intro c hc
    refine hhead c ?_
    rw [htext, List.head?_append_of_ne_nil _ hnonempty]
    exact hc
  have hstart' : ∀ (c : Char), c ∈ (sources front').head? → Token.isBlank c = false := by
    rw [(Component.patched_of_changed hchanges).head?_eq]
    exact hstart
  have hnonempty' : sources front' ≠ [] := by
    intro hnil
    have heq := (Component.patched_of_changed hchanges).head?_eq
    rw [hnil, List.head?_nil] at heq
    exact hnonempty (List.head?_eq_none_iff.mp heq.symm)
  have hsplit : sources rs = lead ++ sources front ++ (sources back ++ behind) := by
    rw [hsources, htext]
    simp
  -- the front of the value is read first in the sheet too
  obtain ⟨others, rfl, hothers⟩ := Component.exists_eq_blanks_append hlead hstart hnonempty
    (hany _).1 (hstands post (.refl post)).unenclosed hsplit
  obtain ⟨hfrontends, hothersends⟩ := List.forall_mem_append.mp hrs
  obtain ⟨hleadends, hfrontends⟩ := List.forall_mem_append.mp hfrontends
  have hends : ∀ c ∈ blanks lead ++ front' ++ others, c.endsValue = false := by
    refine List.forall_mem_append.mpr ⟨List.forall_mem_append.mpr ⟨hleadends, ?_⟩, hothersends⟩
    exact Component.endsValue_of_changed hchanges hfrontends
  refine ⟨blanks lead ++ front' ++ others, by simp [hothers], hends, fun post' hnear => ?_⟩
  refine Stands.inBlock ?_ hends
  obtain ⟨-, hlast⟩ := Component.stands_append.mp (hstands post' hnear).unenclosed
  refine Component.stands_append.mpr ⟨Component.stands_append.mpr ⟨?_, (hany _).2⟩, hlast⟩
  exact Component.stands_blanks hlead (by rwa [List.head?_append_of_ne_nil _ hnonempty'])

end InPlace

/-- A value at the end of the sheet is changed in place, with closing parentheses behind it. -/
theorem Whole.changed {lead text behind : Text} {cs : List Component}
    (h : Whole (lead ++ text ++ behind)) (hlead : ∀ c ∈ lead, Token.isBlank c = true)
    (hhead : ∀ c ∈ text.head?, Token.isBlank c = false) (hne : text ≠ [])
    (hbehind : ∀ c ∈ behind, Token.isBlank c = true) (hcs : Stands none [] cs)
    (hchanged : List.Forall₂ Changed (ofText text) cs) (count : Nat) :
    Whole (lead ++ (sources cs ++ List.replicate count ')') ++ behind) := by
  have hstart := (Component.patched_of_changed hchanged).head?_eq
  rw [Component.source_ofText] at hstart
  have hnonempty : sources cs ≠ [] := by
    intro hnil
    rw [hnil, List.head?_nil] at hstart
    exact hne (List.head?_eq_none_iff.mp hstart.symm)
  rw [List.append_assoc, Whole.blanks_append_iff hlead (by rwa [List.head?_append_of_ne_nil _ hne])] at h
  have hnew : Whole (sources cs) := by
    rw [Whole, Component.ofText_sources hcs]
    exact Component.endsValue_of_changed hchanged h.of_append
  rw [List.append_assoc, List.append_assoc, Whole.blanks_append_iff hlead
    (by rwa [List.head?_append_of_ne_nil _ hnonempty, hstart])]
  refine hnew.append fun c hc => ?_
  rcases List.mem_append.mp hc with hc | hc
  · rw [List.eq_of_mem_replicate hc]
    decide
  · have hblank := hbehind c hc
    constructor <;> rintro rfl <;> exact absurd hblank (by decide)

namespace RawValue

/-- What a raw value has to be for its value to be read in the sheet as it is read alone: white space in it
is that between tokens, and no mark of importance stands inside of a call. -/
structure Steady (raw : Text) : Prop where
  blank : ∀ c ∈ raw, isWhiteSpace c = true → Token.isBlank c = true
  closed : important raw = true → Token.openCalls (value raw) = 0

variable {post raw : Text}

theorem isBlank_head?_value (raw : Text) : ∀ c ∈ (value raw).head?, Token.isBlank c = false := by
  intro c hc
  have hwhite : isWhiteSpace c = false := by
    rcases cases raw with ⟨-, -, -, hbare⟩ | ⟨-, gap, mark, -, -, -, -, -, hbare, -⟩
    · exact hbare.head c hc
    · refine hbare.head c ?_
      rw [List.append_assoc, List.head?_append, hc]
      rfl
  by_contra hblank
  rw [isWhiteSpace_of_isBlank (by simpa using hblank)] at hwhite
  cases hwhite

/-- A call that a value leaves open is open up to the end of the sheet. -/
theorem openCalls_value (h : InPlace post raw) (hpost : Token.Fenced post) (hne : post ≠ [])
    (hbehind : ∀ c ∈ behind raw, Token.isBlank c = true)
    (hlead : ∀ c ∈ Text.leadingSpace raw, Token.isBlank c = true) : Token.openCalls (value raw) = 0 := by
  by_cases hvalue : value raw = []
  · rw [hvalue]
    rfl
  obtain ⟨rs, hsources, -, hstands⟩ := h
  have hopen := (hstands post (.refl post)).openCalls_eq_zero hne
  have hread := Component.ofText_sources (hstands [] (.fenced [] hpost Token.fenced_nil hne)).unenclosed
  rw [hsources] at hread
  have hall : Token.openCalls (value raw ++ behind raw) = 0 := by
    have hhead : ∀ c ∈ (value raw ++ behind raw).head?, Token.isBlank c = false := by
      rw [List.head?_append_of_ne_nil _ hvalue]
      exact isBlank_head?_value raw
    have hsplit := Component.ofText_blanks hlead hhead
    rw [← List.append_assoc, eq_append, hread] at hsplit
    rwa [hsplit, Component.openCalls_blanks_append, Component.openCalls_ofText] at hopen
  exact Component.openCalls_of_append_blank hbehind hall

/-- A resolved raw value ends where the raw value ends, whatever changes behind a fence. -/
theorem inPlace_resolved (settings : Settings) (h : InPlace post raw) (hpost : Token.Fenced post)
    (hraw : Steady raw) : InPlace post (resolved settings raw) := by
  have heq := eq_append raw
  have hlead : ∀ c ∈ Text.leadingSpace raw, Token.isBlank c = true := fun c hc =>
    hraw.blank c (by rw [← heq]; simp [hc]) (Text.isWhiteSpace_of_mem_leadingSpace c hc)
  have hhead := isBlank_head?_value raw
  rcases resolve_valueOr_cases settings (value raw) with hsame | ⟨cs, hcs, hchanged, hnew⟩
  · rwa [resolved, resolvedValue, hsame, heq]
  rw [resolved, resolvedValue, hnew]
  by_cases hopen : Token.openCalls (value raw) = 0
  · have hclosed : Component.openCalls cs = 0 := by
      rw [← Component.openCalls_ofText] at hopen
      exact Component.openCalls_of_changed (Component.stands_ofText _) hcs hchanged hopen
    rw [hclosed, List.replicate_zero, List.append_nil]
    rw [← heq] at h
    exact h.changed_of_closed hlead hhead hcs hchanged hopen
  · have hbehind : ∀ c ∈ behind raw, Token.isBlank c = true := by
      intro c hc
      rcases cases raw with ⟨-, -, hwhite, -⟩ | ⟨himportant, -⟩
      · exact hraw.blank c (by rw [← heq]; simp [hc]) (hwhite c hc)
      · exact absurd (hraw.closed himportant) hopen
    by_cases hne : post = []
    · subst hne
      have hvalue : value raw ≠ [] := by
        intro hnil
        rw [hnil] at hopen
        exact hopen rfl
      rw [InPlace.nil_iff] at h ⊢
      rw [← heq] at h
      exact h.changed hlead hhead hvalue hbehind hcs hchanged _
    · exact absurd (openCalls_value h hpost hne hbehind hlead) hopen

end RawValue

end FluidSizing

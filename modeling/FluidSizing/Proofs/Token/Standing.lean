import FluidSizing.Proofs.Token.Fence

/-! Tokens where they stand. `StandsBefore t rest` says that reading the text of `t` followed by `rest`
gives `t` first; it is stated with what follows, since a name goes on as far as it can. Every text is a
token standing before the rest of it (`exists_standsBefore`), and a token keeps standing when the text
behind a fence changes. -/

namespace FluidSizing
namespace Token

theorem spanLength_le (step : Char → Text → Option Nat) (skip : Nat) (text : Text) :
    spanLength step skip text ≤ text.length := by
  induction text generalizing skip with
  | nil => simp [spanLength]
  | cons c rest ih =>
      cases skip with
      | succ skip =>
          have h := ih skip
          simp only [spanLength, List.length_cons]
          omega
      | zero =>
          simp only [spanLength, List.length_cons]
          split
          · exact Nat.zero_le _
          · rename_i more _
            have h := ih more
            omega

theorem commentLength_le (text : Text) : commentLength text ≤ text.length := by
  induction text with
  | nil => simp [commentLength]
  | cons c rest ih =>
      rw [commentLength_cons, List.length_cons]
      split
      · rename_i hend
        cases rest with
        | nil => simp at hend
        | cons d rest =>
            rw [List.length_cons]
            omega
      · omega

theorem urlLength_le (part : UrlPart) (skip : Nat) (text : Text) :
    urlLength part skip text ≤ text.length := by
  induction text generalizing part skip with
  | nil => simp [urlLength]
  | cons c rest ih =>
      cases skip with
      | succ skip =>
          have h := ih part skip
          simp only [urlLength, List.length_cons]
          omega
      | zero =>
          have h := ih (urlStep part c rest).1 (urlStep part c rest).2
          simp only [urlLength, List.length_cons]
          split <;> omega

theorem scanString_le (quote : Char) (rest : Text) : (scanString quote rest).2 ≤ rest.length := by
  have h := spanLength_le (stringStep quote) 0 rest
  simp only [scanString]
  split
  · exact h
  · rename_i c more hdrop
    have hlen := congrArg List.length hdrop
    simp only [List.length_drop, List.length_cons] at hlen
    split <;> simp only <;> omega

theorem scanNamed_le (c : Char) (rest : Text) : (scanNamed c rest).2 ≤ rest.length := by
  have h := spanLength_le nameStep 0 (c :: rest)
  have hname : nameLength (c :: rest) ≤ rest.length + 1 := h
  simp only [scanNamed]
  split
  · rename_i inside hdrop
    have hlen := congrArg List.length hdrop
    have hurl := urlLength_le .padding 0 inside
    simp only [List.length_drop, List.length_cons] at hlen
    split <;> simp only <;> omega
  · simp only
    omega

/-- The kinds of characters that are tokens alone. -/
inductive CharKind (c : Char) : Kind → Prop where
  | comma (hc : c = ',') : CharKind c .comma
  | colon (hc : c = ':') : CharKind c .colon
  | semicolon (hc : c = ';') : CharKind c .semicolon
  | slash (hc : c = '/') : CharKind c .slash
  | openRound (hc : c = '(') : CharKind c (.opening .round)
  | openSquare (hc : c = '[') : CharKind c (.opening .square)
  | openCurly (hc : c = '\x7b') : CharKind c (.opening .curly)
  | closeRound (hc : c = ')') : CharKind c (.closing .round)
  | closeSquare (hc : c = ']') : CharKind c (.closing .square)
  | closeCurly (hc : c = '\x7d') : CharKind c (.closing .curly)
  | other : CharKind c .other

theorem charKind (c : Char) : CharKind c (kindOfChar c) := by
  unfold kindOfChar
  by_cases h : c = ','
  · rw [if_pos h]; exact .comma h
  rw [if_neg h]; clear h
  by_cases h : c = ':'
  · rw [if_pos h]; exact .colon h
  rw [if_neg h]; clear h
  by_cases h : c = ';'
  · rw [if_pos h]; exact .semicolon h
  rw [if_neg h]; clear h
  by_cases h : c = '/'
  · rw [if_pos h]; exact .slash h
  rw [if_neg h]; clear h
  by_cases h : c = '('
  · rw [if_pos h]; exact .openRound h
  rw [if_neg h]; clear h
  by_cases h : c = '['
  · rw [if_pos h]; exact .openSquare h
  rw [if_neg h]; clear h
  by_cases h : c = '\x7b'
  · rw [if_pos h]; exact .openCurly h
  rw [if_neg h]; clear h
  by_cases h : c = ')'
  · rw [if_pos h]; exact .closeRound h
  rw [if_neg h]; clear h
  by_cases h : c = ']'
  · rw [if_pos h]; exact .closeSquare h
  rw [if_neg h]; clear h
  by_cases h : c = '\x7d'
  · rw [if_pos h]; exact .closeCurly h
  rw [if_neg h]; clear h
  exact .other

theorem exists_reader_eq (c : Char) (rest : Text) :
    ∃ read, Reader c rest read ∧ scan c rest = read rest := by
  obtain ⟨read, hread, hscan⟩ := exists_reader c rest
  have heq := hscan [] fenced_nil
  rw [List.append_nil] at heq
  exact ⟨read, hread, heq⟩

/-- A token takes no more characters than there are. -/
theorem scan_le (c : Char) (rest : Text) : (scan c rest).2 ≤ rest.length := by
  have hname : nameLength rest ≤ rest.length := spanLength_le nameStep 0 rest
  obtain ⟨read, hread, hscan⟩ := exists_reader_eq c rest
  rw [hscan]
  cases hread with
  | blank => exact (List.takeWhile_sublist _).length_le
  | quote => exact scanString_le c rest
  | comment _ hstar =>
      have hcomment := commentLength_le (rest.drop 1)
      cases rest with
      | nil => cases hstar
      | cons d rest =>
          simp only [List.drop_succ_cons, List.drop_zero, List.length_cons] at hcomment ⊢
          omega
  | commentClose hahead => exact (List.isPrefixOf_iff_prefix.mp hahead).length_le
  | commentOpen hahead => exact (List.isPrefixOf_iff_prefix.mp hahead).length_le
  | named => exact scanNamed_le c rest
  | single => exact Nat.zero_le _
  | _ => exact hname

/-- The first token of its text followed by `rest` is the token itself. -/
def StandsBefore (t : Token) (rest : Text) : Prop :=
  ∃ c more, t.text = c :: more ∧ scan c (more ++ rest) = (t.kind, more.length)

theorem StandsBefore.tokenize {t : Token} {rest : Text} (h : t.StandsBefore rest) :
    tokenize (t.text ++ rest) = t :: Token.tokenize rest := by
  obtain ⟨kind, text⟩ := t
  obtain ⟨c, more, rfl, hscan⟩ := h
  rw [List.cons_append, tokenize_cons, hscan, List.take_left, List.drop_left]

theorem StandsBefore.wellSpelled {t : Token} {rest : Text} (h : t.StandsBefore rest) :
    t.WellSpelled := by
  have hmem : t ∈ Token.tokenize (t.text ++ rest) := by
    rw [h.tokenize]
    exact List.mem_cons_self
  exact wellSpelled_of_mem_tokenize hmem

theorem StandsBefore.text_ne_nil {t : Token} {rest : Text} (h : t.StandsBefore rest) :
    t.text ≠ [] := by
  obtain ⟨c, more, htext, -⟩ := h
  rw [htext]
  exact List.cons_ne_nil c more

/-- Every text is a token standing before the rest of it. -/
theorem exists_standsBefore (c : Char) (text : Text) :
    ∃ (t : Token) (rest : Text), c :: text = t.text ++ rest ∧ t.StandsBefore rest := by
  have hlen : (text.take (scan c text).2).length = (scan c text).2 :=
    List.length_take_of_le (scan_le c text)
  refine ⟨⟨(scan c text).1, c :: text.take (scan c text).2⟩, text.drop (scan c text).2, ?_,
    c, text.take (scan c text).2, rfl, ?_⟩
  · rw [List.cons_append, List.take_append_drop]
  · rw [List.take_append_drop, hlen]

theorem StandsBefore.fenced {t : Token} {mid post post' : Text} (h : t.StandsBefore (mid ++ post))
    (hpost : Fenced post) (hpost' : Fenced post') (hne : mid ++ post ≠ []) :
    t.StandsBefore (mid ++ post') := by
  obtain ⟨c, more, htext, hscan⟩ := h
  refine ⟨c, more, htext, ?_⟩
  have hpos := List.length_pos_iff.mpr hne
  rw [← List.append_assoc] at hscan ⊢
  rw [← hscan]
  refine scan_fenced hpost hpost' c (more ++ mid) ?_ ?_
  · rw [hscan, List.length_append]
    exact Nat.le_add_right ..
  · rw [hscan, List.append_assoc, List.length_append]
    omega

/-- The character of a separator. -/
def Kind.separator? : Kind → Option Char
  | .comma => some ','
  | .colon => some ':'
  | .slash => some '/'
  | _ => none

theorem separator?_scanString (quote : Char) (rest : Text) :
    (scanString quote rest).1.separator? = none := by
  simp only [scanString]
  split
  · rfl
  · split <;> rfl

theorem separator?_scanNamed (c : Char) (rest : Text) :
    (scanNamed c rest).1.separator? = none := by
  simp only [scanNamed]
  split
  · split <;> rfl
  · rfl

theorem eq_of_separator?_kindOfChar {c d : Char} (h : (kindOfChar c).separator? = some d) :
    c = d := by
  have hkind := charKind c
  generalize kindOfChar c = kind at hkind h
  cases hkind with
  | comma hc => rw [hc]; exact Option.some.inj h
  | colon hc => rw [hc]; exact Option.some.inj h
  | slash hc => rw [hc]; exact Option.some.inj h
  | _ => cases h

/-- A separator is a token of one character. -/
theorem scan_of_separator? {c d : Char} {rest : Text} (h : (scan c rest).1.separator? = some d) :
    c = d ∧ (scan c rest).2 = 0 := by
  obtain ⟨read, hread, hscan⟩ := exists_reader_eq c rest
  rw [hscan] at h ⊢
  cases hread with
  | quote => rw [separator?_scanString] at h; cases h
  | named => rw [separator?_scanNamed] at h; cases h
  | single => exact ⟨eq_of_separator?_kindOfChar h, rfl⟩
  | _ => cases h

theorem StandsBefore.text_of_separator? {t : Token} {rest : Text} (h : t.StandsBefore rest)
    {d : Char} (hd : t.kind.separator? = some d) : t.text = [d] := by
  obtain ⟨c, more, htext, hscan⟩ := h
  have hkind : (scan c (more ++ rest)).1.separator? = some d := by rw [hscan]; exact hd
  obtain ⟨rfl, hlen⟩ := scan_of_separator? hkind
  rw [hscan] at hlen
  rw [htext, List.length_eq_zero_iff.mp hlen]

theorem kind_ne_whitespace_of_not_isBlank {c : Char} {rest : Text} (hc : isBlank c = false) :
    (scan c rest).1 ≠ .whitespace := by
  have hstring : ∀ quote, (scanString quote rest).1 ≠ .whitespace := by
    intro quote
    simp only [scanString]
    split
    · simp
    · split <;> simp
  have hnamed : (scanNamed c rest).1 ≠ .whitespace := by
    simp only [scanNamed]
    split
    · split <;> simp
    · simp
  have hchar : kindOfChar c ≠ .whitespace := by
    have hkind := charKind c
    generalize kindOfChar c = kind at hkind ⊢
    cases hkind <;> decide
  obtain ⟨read, hread, hscan⟩ := exists_reader_eq c rest
  rw [hscan]
  cases hread with
  | blank hblank => rw [hc] at hblank; cases hblank
  | quote => exact hstring _
  | named => exact hnamed
  | single => exact hchar
  | _ => exact fun h => Kind.noConfusion h

/-- White space is blank throughout. -/
theorem StandsBefore.isBlank_of_whitespace {t : Token} {rest : Text} (h : t.StandsBefore rest)
    (ht : t.kind = .whitespace) : ∀ c ∈ t.text, isBlank c = true := by
  obtain ⟨c, more, htext, hscan⟩ := h
  rw [ht] at hscan
  cases hc : isBlank c with
  | false => exact absurd (congrArg Prod.fst hscan) (kind_ne_whitespace_of_not_isBlank hc)
  | true =>
      rw [scan, if_pos hc, Prod.mk.injEq] at hscan
      have hmore : (more ++ rest).takeWhile isBlank = more := by
        have hahead := List.takeWhile_prefix isBlank (l := more ++ rest)
        have hahead' : more <+: more ++ rest := List.prefix_append more rest
        exact (List.prefix_of_prefix_length_le hahead hahead'
          (Nat.le_of_eq hscan.2)).eq_of_length hscan.2
      rw [htext, List.forall_mem_cons]
      refine ⟨hc, ?_⟩
      intro d hd
      rw [← hmore] at hd
      exact List.all_eq_true.mp List.all_takeWhile d hd

/-- White space takes all that is blank. -/
theorem StandsBefore.not_isBlank_head {t : Token} {rest : Text} (h : t.StandsBefore rest)
    (ht : t.kind = .whitespace) : ∀ c ∈ rest.head?, isBlank c = false := by
  intro d hd
  have hblank := h.isBlank_of_whitespace ht
  obtain ⟨c, more, htext, hscan⟩ := h
  rw [htext, List.forall_mem_cons] at hblank
  rw [ht, scan, if_pos hblank.1, Prod.mk.injEq] at hscan
  obtain ⟨behind, rfl⟩ : ∃ behind, rest = d :: behind := by
    cases rest with
    | nil => cases hd
    | cons e behind => exact ⟨behind, by rw [Option.some.inj hd]⟩
  rw [List.takeWhile_append_of_pos hblank.2, List.takeWhile_cons] at hscan
  cases hd : isBlank d with
  | false => rfl
  | true =>
      rw [hd, if_pos rfl, List.length_append, List.length_cons] at hscan
      omega

theorem standsBefore_close (bracket : Bracket) (rest : Text) :
    StandsBefore ⟨.closing bracket, [bracket.close]⟩ rest := by
  refine ⟨bracket.close, [], rfl, ?_⟩
  cases bracket <;> rfl

end Token
end FluidSizing

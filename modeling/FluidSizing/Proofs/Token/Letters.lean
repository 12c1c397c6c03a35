import FluidSizing.Proofs.Text.Trim
import FluidSizing.Proofs.Token.Closed
import FluidSizing.Proofs.Component.Standing

/-! Words of letters. Nothing in a word ends a name, so the word stands before any text that does not go
on with it, alone (`Letters.standsBefore`) or as a keyword (`Letters.standsBefore_keyword`), and before
any text at all with a parenthesis (`Letters.standsBefore_call`); it denotes itself
(`Letters.unescape_text`). -/

namespace FluidSizing

structure Letters where
  text : Text
  ne_nil : text ≠ []
  isAlpha : ∀ c ∈ text, c.isAlpha = true

theorem ne_of_isAlpha {c d : Char} (hc : c.isAlpha = true) (hd : d.isAlpha = false) : c ≠ d := by
  rintro rfl
  rw [hc] at hd
  cases hd

theorem isWhiteSpace_of_isAlpha {c : Char} (h : c.isAlpha = true) : isWhiteSpace c = false := by
  have hrange : 65 ≤ c.toNat ∧ c.toNat ≤ 90 ∨ 97 ≤ c.toNat ∧ c.toNat ≤ 122 := by
    have halpha : (decide (65 ≤ c.val ∧ c.val ≤ 90) || decide (97 ≤ c.val) && decide (c.val ≤ 122)) =
        true := h
    simpa [UInt32.le_iff_toNat_le, ← Char.toNat_val] using halpha
  simp only [isWhiteSpace, Bool.or_eq_false_iff, Bool.and_eq_false_iff, decide_eq_false_iff_not]
  omega

theorem Text.toLowerAscii_of_isLower {text : Text} (h : ∀ c ∈ text, c.isLower = true) :
    toLowerAscii text = text := by
  have hlower : ∀ c ∈ text, c.toLower = id c := by
    intro c hc
    have hrange : (decide (97 ≤ c.val) && decide (c.val ≤ 122)) = true := h c hc
    simp only [Bool.and_eq_true, decide_eq_true_eq, UInt32.le_iff_toNat_le] at hrange
    refine dif_neg fun hupper => ?_
    simp only [UInt32.le_iff_toNat_le, ge_iff_le] at hupper
    exact absurd (Nat.le_trans hrange.1 hupper.2) (by decide)
  rw [toLowerAscii, List.map_congr_left hlower, List.map_id]

theorem Token.isBlank_of_isAlpha {c : Char} (h : c.isAlpha = true) : isBlank c = false := by
  by_contra hblank
  have hwhite := isWhiteSpace_of_isBlank (by simpa using hblank)
  rw [isWhiteSpace_of_isAlpha h] at hwhite
  cases hwhite

namespace Letters

variable (w : Letters)

theorem exists_cons : ∃ c more, w.text = c :: more ∧ c.isAlpha = true ∧ ∀ d ∈ more, d.isAlpha = true := by
  obtain ⟨c, more, htext⟩ := List.exists_cons_of_ne_nil w.ne_nil
  have hall := w.isAlpha
  rw [htext] at hall
  obtain ⟨hc, hmore⟩ := List.forall_mem_cons.mp hall
  exact ⟨c, more, htext, hc, hmore⟩

/-- A word has no white space at its ends. -/
theorem bare : w.text.Bare :=
  ⟨fun c hc => isWhiteSpace_of_isAlpha (w.isAlpha c (List.mem_of_mem_head? hc)),
    fun c hc => isWhiteSpace_of_isAlpha (w.isAlpha c (List.mem_of_getLast? hc))⟩

variable {post : Text}

theorem startsName_text : Token.startsName (w.text ++ post) = true := by
  obtain ⟨c, more, htext, hc, -⟩ := w.exists_cons
  have hhyphen : c ≠ '-' := ne_of_isAlpha hc (by decide)
  have hslash : c ≠ '\\' := ne_of_isAlpha hc (by decide)
  simp [htext, Token.startsName, hhyphen, hslash, Token.isNameStart, hc]

/-- Words are names to their end. -/
theorem nameLength_text (hpost : Token.EndsName post) :
    Token.nameLength (w.text ++ post) = w.text.length := by
  have hback : '\\' ∉ w.text := fun hmem => absurd (w.isAlpha _ hmem) (by decide)
  rw [Token.nameLength_append hpost hback, Token.nameLength]
  have hall := w.isAlpha
  generalize w.text = text at hall
  induction text with
  | nil => rfl
  | cons c text ih =>
      obtain ⟨hc, hrest⟩ := List.forall_mem_cons.mp hall
      have hslash : c ≠ '\\' := ne_of_isAlpha hc (by decide)
      have hname : Token.isNameChar c = true := by simp [Token.isNameChar, Token.isNameStart, hc]
      simp only [Token.spanLength, Token.nameStep, if_neg hslash, hname, if_true]
      rw [ih hrest, List.length_cons, Nat.add_comm]

/-- A token that starts with a word starts with a name, which is the whole word. -/
theorem scan_text (hpost : Token.EndsName post) :
    ∃ c more, w.text = c :: more ∧ Token.scan c (more ++ post) = Token.scanNamed c (more ++ post) ∧
      Token.nameLength (c :: (more ++ post)) - 1 = more.length := by
  obtain ⟨c, more, htext, hc, -⟩ := w.exists_cons
  have hname : Token.startsName (w.text ++ post) = true := w.startsName_text
  have hlength := w.nameLength_text hpost
  rw [htext, List.cons_append] at hname hlength
  refine ⟨c, more, htext, ?_, by rw [hlength, List.length_cons, Nat.add_sub_cancel]⟩
  have hblank : Token.isBlank c = false := Token.isBlank_of_isAlpha hc
  have hdouble : c ≠ '\x22' := ne_of_isAlpha hc (by decide)
  have hsingle : c ≠ '\x27' := ne_of_isAlpha hc (by decide)
  have hslash : c ≠ '/' := ne_of_isAlpha hc (by decide)
  have hhyphen : c ≠ '-' := ne_of_isAlpha hc (by decide)
  have hless : c ≠ '<' := ne_of_isAlpha hc (by decide)
  have hat : c ≠ '@' := ne_of_isAlpha hc (by decide)
  have hhash : c ≠ '#' := ne_of_isAlpha hc (by decide)
  simp [Token.scan, hblank, hdouble, hsingle, hslash, hhyphen, hless, hat, hhash, hname]

/-- A word stands before any text that does not go on with it. -/
theorem standsBefore (hpost : Token.Apart post) : Token.StandsBefore ⟨.ident, w.text⟩ post := by
  obtain ⟨c, more, htext, hscan, hlength⟩ := w.scan_text hpost.endsName
  refine ⟨c, more, htext, ?_⟩
  have hbehind : ((more ++ post).drop (Token.nameLength (c :: (more ++ post)) - 1)).head? ≠ some '(' := by
    rw [hlength, List.drop_left]
    exact fun hopen => hpost.ne_of_head? hopen (Or.inr (by decide)) rfl
  rw [hscan, Token.scanNamed_of_head? hbehind, hlength]

/-- A word with a parenthesis opens a call before any text, if it is no URL. -/
theorem standsBefore_call (hurl : Token.isUrl w.text = false) (rest : Text) :
    (Opening.call w.text).token.StandsBefore rest := by
  have hends : Token.EndsName ('(' :: rest) := by
    rintro c ⟨⟩
    decide
  obtain ⟨c, more, htext, hscan, hlength⟩ := w.scan_text hends
  refine ⟨c, more ++ ['('], by rw [Opening.token, htext]; rfl, ?_⟩
  have htake : c :: (more ++ '(' :: rest).take more.length = w.text := by rw [List.take_left, htext]
  rw [List.append_assoc, List.singleton_append, hscan, Token.scanNamed, hlength, List.drop_left, htake,
    hurl, List.length_append]
  rfl

/-- A word behind an at sign is a keyword. -/
theorem standsBefore_keyword (hpost : Token.Apart post) :
    Token.StandsBefore ⟨.atKeyword, '@' :: w.text⟩ post := by
  refine ⟨'@', w.text, rfl, ?_⟩
  have hblank : Token.isBlank '@' = false := by decide
  simp [Token.scan, hblank, w.startsName_text, w.nameLength_text hpost.endsName]

/-- A word denotes itself. -/
theorem unescape_text : Token.unescape w.text = w.text := by
  rw [Token.unescape]
  have hall := w.isAlpha
  generalize w.text = text at hall
  induction text with
  | nil => rfl
  | cons c text ih =>
      obtain ⟨hc, hrest⟩ := List.forall_mem_cons.mp hall
      have hslash : c ≠ '\\' := ne_of_isAlpha hc (by decide)
      have hnull : c ≠ '\x00' := ne_of_isAlpha hc (by decide)
      rw [Token.unescapeFrom, if_neg hslash, if_neg hnull, ih hrest]

end Letters

end FluidSizing

import FluidSizing.Proofs.Component.Reading
import FluidSizing.Proofs.Token.Letters

/-! Closed texts, at the end of which nothing is open, so that a semicolon put there is read as one
(`Text.closed_iff_semicolon`). Two of them with a space between are read one after the other: only the
white space at the join becomes one token (`ofText_joined`). One of them between the parentheses of a call
is the body of the call, if none of its own parentheses closes it (`ofText_call`). -/

namespace FluidSizing

open Token (Apart)

/-- A text without backslashes that leaves nothing open: no function, no bracket, no string, no comment
and no URL. -/
structure Text.Closed (text : Text) : Prop where
  isOpen_last : ∀ c ∈ (Component.ofText text).getLast?, c.isOpen = false
  unescaped : '\\' ∉ text

/-- A text without backslashes is closed just if a semicolon behind it is read as one. -/
theorem Text.closed_iff_semicolon {text : Text} : text.Closed ↔ '\\' ∉ text ∧
    Component.ofText (text ++ [';']) = Component.ofText text ++ [.token ⟨.semicolon, [';']⟩] := by
  constructor
  · intro h
    exact ⟨h.unescaped, (Component.closed_iff h.unescaped).mp h.isOpen_last⟩
  · rintro ⟨hback, hread⟩
    exact ⟨(Component.closed_iff hback).mpr hread, hback⟩

namespace Component

variable {text : Text}

/-- A closed text leaves no call open. -/
theorem openCalls_of_closed (h : text.Closed) : Token.openCalls text = 0 := by
  have hstands := stands_ofText text
  rw [← openCalls_ofText, hstands.openCalls_eq_zero_iff]
  intro c hc
  by_contra hcall
  have hopen : c.isOpen = true := by
    cases c with
    | token t => simp [isOpenCall] at hcall
    | block opening body closed => simp_all [isOpenCall, isOpen]
  obtain ⟨front, behind, hsplit⟩ := List.append_of_mem hc
  have hlast : c ∈ (ofText text).getLast? := by
    cases c with
    | token t => simp [isOpenCall] at hcall
    | block opening body closed =>
        obtain rfl : closed = false := by simpa [isOpen] using hopen
        rw [hsplit] at hstands
        obtain rfl := hstands.eq_nil_of_unclosed
        simp [hsplit]
  rw [h.isOpen_last c hlast] at hopen
  cases hopen

/-- The white space at the end of a closed text apart, the text is read the same before any text that does
not go on with it. -/
theorem exists_blanks_of_closed (h : text.Closed) :
    ∃ cs blank, ofText text = cs ++ blanks blank ∧ (∀ c ∈ blank, Token.isBlank c = true) ∧
      ∀ post, Apart post → Stands none (blank ++ post) cs := by
  by_cases hlast : ∃ t, token t ∈ (ofText text).getLast? ∧ t.kind = .whitespace
  · obtain ⟨⟨kind, blank⟩, hmem, rfl⟩ := hlast
    obtain ⟨front, hfront⟩ := List.getLast?_eq_some_iff.mp hmem
    have hstands := stands_ofText text
    rw [hfront] at hstands
    obtain ⟨hbefore, hend⟩ := stands_append.mp hstands
    cases hend with
    | token stands _ _ =>
        have hne : blank ≠ [] := stands.text_ne_nil
        refine ⟨front, blank, ?_, stands.isBlank_of_whitespace rfl, ?_⟩
        · rw [hfront]
          cases blank with
          | nil => exact absurd rfl hne
          | cons c blank => rfl
        · intro post hpost
          rw [sources_cons, source, sources_nil, List.append_nil, List.append_nil] at hbefore
          exact hbefore.ahead hne hpost
  · refine ⟨ofText text, [], by simp [blanks], by simp, ?_⟩
    intro post hpost
    exact stands_of_closed h.isOpen_last h.unescaped hpost fun t ht hkind => absurd ⟨t, ht, hkind⟩ hlast

/-- A text behind a closed one and a space is read behind it. The white space at the end of the one, the
space and the white space at the start of the other are one token. -/
theorem ofText_joined (h : text.Closed) (behind : Text) :
    ∃ cs blank leading ds, ofText text = cs ++ blanks blank ∧ ofText behind = blanks leading ++ ds ∧
      ofText (text ++ ' ' :: behind) = cs ++ (blanks (blank ++ ' ' :: leading) ++ ds) := by
  obtain ⟨cs, blank, hcs, hblank, hstands⟩ := exists_blanks_of_closed h
  have hspace : Token.isBlank ' ' = true := by decide
  -- the white space at the start of the text behind, and what follows it
  have hleading : ∀ c ∈ behind.takeWhile Token.isBlank, Token.isBlank c = true := fun c hc =>
    List.mem_takeWhile_imp hc
  have hrest : ∀ c ∈ (behind.dropWhile Token.isBlank).head?, Token.isBlank c = false := by
    intro c hc
    have hhead := List.head?_dropWhile_not Token.isBlank behind
    rw [hc] at hhead
    simpa using hhead
  have hbehind := List.takeWhile_append_dropWhile (p := Token.isBlank) (l := behind)
  generalize behind.takeWhile Token.isBlank = leading, behind.dropWhile Token.isBlank = rest at *
  subst hbehind
  have htext : text ++ ' ' :: (leading ++ rest) = sources cs ++ (blank ++ ' ' :: leading ++ rest) := by
    rw [← source_ofText text, hcs]
    simp
  have hmiddle : ∀ c ∈ blank ++ ' ' :: leading, Token.isBlank c = true := by
    simpa [or_imp, forall_and, hspace] using ⟨hblank, hleading⟩
  refine ⟨cs, blank, leading, ofText rest, hcs, ofText_blanks hleading hrest, ?_⟩
  calc ofText (text ++ ' ' :: (leading ++ rest))
      = ofText (sources cs ++ (blank ++ ' ' :: leading ++ rest)) := by rw [htext]
    _ = cs ++ ofText (blank ++ ' ' :: leading ++ rest) := by
        refine Stands.ofText_append ?_
        rw [List.append_assoc]
        exact hstands _ (Token.apart_of_isBlank hspace _)
    _ = cs ++ (blanks (blank ++ ' ' :: leading) ++ ofText rest) := by rw [ofText_blanks hmiddle hrest]

/-- A name of small letters, which may be empty, opens a block in parentheses before any text, if it does
not open a URL. -/
theorem exists_opening_of_name {name : Text} (hname : ∀ c ∈ name, c.isLower = true)
    (hurl : name ≠ ['u', 'r', 'l']) :
    ∃ opening : Opening, opening.text = name ++ ['('] ∧ opening.brackets = .round ∧
      ∀ rest, opening.token.StandsBefore rest := by
  by_cases hnil : name = []
  · subst hnil
    exact ⟨.bracket .round, rfl, rfl, fun rest => ⟨'(', [], rfl, rfl⟩⟩
  · have halpha : ∀ c ∈ name, c.isAlpha = true := fun c hc =>
      Bool.or_eq_true_iff.mpr (Or.inr (hname c hc))
    let word : Letters := ⟨name, hnil, halpha⟩
    refine ⟨.call name, rfl, rfl, word.standsBefore_call ?_⟩
    have hsame : Token.unescape name = name := word.unescape_text
    show decide (Text.toLowerAscii (Token.unescape name) = ['u', 'r', 'l']) = false
    rw [hsame, Text.toLowerAscii_of_isLower hname]
    exact decide_eq_false hurl

/-- A closed text without an unmatched parenthesis, put between those of a call, is the body of the
call. -/
theorem ofText_call {name : Text} (hname : ∀ c ∈ name, c.isLower = true)
    (hurl : name ≠ ['u', 'r', 'l']) (h : text.Closed)
    (hmatched : ∀ t, token t ∈ ofText text → t.kind ≠ .closing .round) :
    ∃ opening : Opening, opening.text = name ++ ['('] ∧
      ofText (name ++ '(' :: (text ++ [')'])) = [block opening (ofText text) true] := by
  obtain ⟨opening, htext, hround, hopening⟩ := exists_opening_of_name hname hurl
  refine ⟨opening, htext, ?_⟩
  have hclose : Apart [')'] := Token.apart_cons (by decide) (by decide) (by decide) []
  have hbody : Stands none [')'] (ofText text) :=
    stands_of_closed h.isOpen_last h.unescaped hclose fun _ _ _ => by
      rintro c ⟨⟩
      decide
  have hinside : Stands (some .round) [')'] (ofText text) := by
    refine hbody.enclose fun t ht => ?_
    have hflat := hbody.isFlat_of_mem t ht
    have hkind := hmatched t ht
    generalize t.kind = kind at hflat hkind
    cases kind with
    | closing bracket => simpa [Token.Kind.isFlat] using Ne.symm hkind
    | _ => exact hflat
  have hstands : Stands none [] [block opening (ofText text) true] := by
    refine .closed (hopening _) ?_ (.nil _ _)
    rw [hround]
    exact hinside
  have hread := ofText_sources hstands
  simpa [source, htext, hround, Bracket.close, source_ofText] using hread

end Component

namespace Text.Closed

open Component

theorem joined {text behind : Text} (h : text.Closed) (hbehind : behind.Closed) :
    (text ++ ' ' :: behind).Closed where
  isOpen_last := by
    obtain ⟨cs, blank, leading, ds, -, hds, hread⟩ := ofText_joined h behind
    rw [hread]
    intro c hc
    rcases List.eq_nil_or_concat ds with rfl | ⟨front, last, rfl⟩
    · -- only white space is behind, and that waits for nothing
      cases blank <;> (simp [blanks] at hc; rw [← hc]; rfl)
    · refine hbehind.isOpen_last c ?_
      rw [hds]
      simpa using hc
  unescaped := by simp [h.unescaped, hbehind.unescaped]

theorem call {name text : Text} (hname : ∀ c ∈ name, c.isLower = true)
    (hurl : name ≠ ['u', 'r', 'l']) (h : text.Closed)
    (hmatched : ∀ t, token t ∈ ofText text → t.kind ≠ .closing .round) :
    (name ++ '(' :: (text ++ [')'])).Closed where
  isOpen_last := by
    obtain ⟨opening, -, hread⟩ := ofText_call hname hurl h hmatched
    rw [hread]
    rintro c ⟨⟩
    rfl
  unescaped := by
    have hslash : '\\' ∉ name := fun hmem => absurd (hname _ hmem) (by decide)
    simp [hslash, h.unescaped]

end Text.Closed
end FluidSizing

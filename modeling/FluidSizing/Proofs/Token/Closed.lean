import FluidSizing.Proofs.Token.Ahead

/-! Tokens that are closed at the end of a text: a string that has both quotes, a comment that has its
closing mark, an unquoted URL that has its parenthesis. Without a backslash, which could escape what
follows, the last token of a text is then the same with other text behind (`StandsBefore.of_closed`).
With `scan_ahead` for the tokens before it, no token of the text goes on behind it. An open token does:
it takes what is put behind (`StandsBefore.isOpen_eq_false_iff`). -/

namespace FluidSizing
namespace Token

/-- Whether a token at the end of a text waits for its end: a string for its other quote, a comment for
its closing mark, and an unquoted URL, the only other token with a parenthesis in it, for the closing
one. -/
def isOpen (t : Token) : Bool :=
  match t.kind with
  | .string => t.text.length < 2 || t.text.getLast? ≠ t.text.head?
  | .comment => !(['*', '/'].isSuffixOf (t.text.drop 2))
  | .other => '(' ∈ t.text && t.text.getLast? ≠ some ')'
  | _ => false

variable {post : Text}

/-- Without a backslash, names are the characters of names at the start. -/
theorem nameLength_append (hpost : EndsName post) {text : Text} (hback : '\\' ∉ text) :
    nameLength (text ++ post) = nameLength text := by
  unfold nameLength
  induction text with
  | nil =>
      cases hp : post with
      | nil => rfl
      | cons c rest =>
          obtain ⟨hname, hslash⟩ := hpost c (by rw [hp]; rfl)
          simp [spanLength, nameStep, hname, hslash]
  | cons c text ih =>
      have hc : c ≠ '\\' := fun heq => hback (heq ▸ List.mem_cons_self)
      have hrest := ih fun hmem => hback (List.mem_cons_of_mem c hmem)
      rw [List.cons_append, spanLength, spanLength, nameStep, nameStep, if_neg hc, if_neg hc]
      split
      · rfl
      · rename_i more hmore
        split at hmore
        · obtain rfl := Option.some.inj hmore
          rw [hrest]
        · cases hmore

/-- A string without a backslash and without its other quote goes on to the end of the text. -/
theorem not_mem_of_stringLength {quote : Char} {text : Text} (hback : '\\' ∉ text)
    (hfull : spanLength (stringStep quote) 0 text = text.length) : quote ∉ text := by
  induction text with
  | nil => simp
  | cons c text ih =>
      have hc : c ≠ '\\' := fun heq => hback (heq ▸ List.mem_cons_self)
      rw [spanLength, stringStep, if_neg hc, List.length_cons] at hfull
      split at hfull
      · omega
      · rename_i more hmore
        split at hmore
        · cases hmore
        · rename_i hend
          obtain rfl := Option.some.inj hmore
          rw [Bool.or_eq_true, decide_eq_true_eq, not_or] at hend
          refine List.not_mem_cons_of_ne_of_not_mem (Ne.symm hend.1) (ih ?_ (by omega))
          exact fun hmem => hback (List.mem_cons_of_mem c hmem)

theorem scanString_closed {quote : Char} {text : Text} (hback : '\\' ∉ text)
    (hfull : (scanString quote text).2 = text.length)
    (hclosed : (scanString quote text).1 = .string → text.getLast? = some quote) :
    scanString quote (text ++ post) = scanString quote text := by
  have hle := spanLength_le_scanString quote text
  refine scanString_append (Nat.lt_of_le_of_ne (hfull ▸ hle) fun hall => ?_)
  have hstring : (scanString quote text).1 = .string := by
    simp only [scanString, hall, List.drop_length]
  exact not_mem_of_stringLength hback hall (List.mem_of_getLast? (hclosed hstring))

theorem commentLength_closed {text : Text} (hend : ['*', '/'] <:+ text)
    (hfull : commentLength text = text.length) : commentLength (text ++ post) = text.length := by
  induction text with
  | nil => simp at hend
  | cons c rest ih =>
      rw [commentLength_cons, List.length_cons] at hfull
      have hne : rest ≠ [] := by
        rintro rfl
        have hle := hend.length_le
        simp at hle
      have hhead : (rest ++ post).head? = rest.head? := List.head?_append_of_ne_nil _ hne
      rw [List.cons_append, commentLength_cons, hhead, List.length_cons]
      split at hfull
      · rename_i hmark
        rw [if_pos hmark, hfull]
      · rename_i hmark
        rw [if_neg hmark]
        rcases List.suffix_cons_iff.mp hend with heq | hrest
        · obtain ⟨rfl, rfl⟩ := List.cons.inj heq
          exact absurd ⟨rfl, rfl⟩ hmark
        · rw [ih hrest (by omega), Nat.add_comm]

/-- A character of a URL other than a backslash does not see what follows. -/
theorem urlStep_of_ne {c : Char} (hc : c ≠ '\\') (part : UrlPart) (rest rest' : Text) :
    (urlStep part c rest).2 = 0 ∧ urlStep part c rest = urlStep part c rest' := by
  have hbody : (urlBodyStep c rest).2 = 0 ∧ urlBodyStep c rest = urlBodyStep c rest' := by
    unfold urlBodyStep
    rw [if_neg hc, if_neg hc]
    split_ifs <;> exact ⟨rfl, rfl⟩
  cases part with
  | padding =>
      simp only [urlStep]
      split
      · exact ⟨rfl, rfl⟩
      · exact hbody
  | body => exact hbody
  | ending =>
      refine ⟨?_, rfl⟩
      simp only [urlStep]
      split <;> rfl
  | broken => simp [urlStep, hc]

theorem urlLength_closed {part : UrlPart} {text : Text} (hback : '\\' ∉ text)
    (hend : text.getLast? = some ')') (hfull : urlLength part 0 text = text.length) :
    urlLength part 0 (text ++ post) = text.length := by
  induction text generalizing part with
  | nil => cases hend
  | cons c rest ih =>
      have hc : c ≠ '\\' := fun heq => hback (heq ▸ List.mem_cons_self)
      obtain ⟨hmore, hsame⟩ := urlStep_of_ne hc part rest (rest ++ post)
      rw [urlLength, List.length_cons] at hfull
      rw [List.cons_append, urlLength, List.length_cons, ← hsame]
      split at hfull
      · rename_i hclose
        rw [if_pos hclose]
        exact hfull
      · rename_i hclose
        rw [if_neg hclose]
        have hne : rest ≠ [] := by
          rintro rfl
          exact hclose (Option.some.inj hend)
        rw [List.getLast?_cons_of_ne_nil hne] at hend
        dsimp only at hfull ⊢
        rw [hmore] at hfull ⊢
        rw [ih (fun hmem => hback (List.mem_cons_of_mem c hmem)) hend (by omega), Nat.add_comm]

/-- A URL with its parenthesis at the end of the text, and whether it is one, do not see what is behind. -/
theorem url_closed {inside : Text} (hback : '\\' ∉ inside) (hend : inside.getLast? = some ')')
    (hfull : urlLength .padding 0 inside = inside.length) :
    startsQuote (inside ++ post) = startsQuote inside ∧
      urlLength .padding 0 (inside ++ post) = urlLength .padding 0 inside := by
  have hnonblank : inside.dropWhile isBlank ≠ [] := by
    rw [Ne, List.dropWhile_eq_nil_iff]
    exact fun hblank => absurd (hblank ')' (List.mem_of_getLast? hend)) (by decide)
  rw [hfull]
  exact ⟨startsQuote_ahead hnonblank, urlLength_closed hback hend hfull⟩

/-- What is behind a parenthesis ends as the text does, if that does not end with this parenthesis. -/
theorem getLast?_inside {text inside : Text} {n : Nat} (h : text.drop n = '(' :: inside)
    (hlast : text.getLast? = some ')') : inside.getLast? = some ')' := by
  rw [← List.take_append_drop n text, h, List.getLast?_append_of_ne_nil _ (List.cons_ne_nil _ _)] at hlast
  cases inside with
  | nil => cases hlast
  | cons => rwa [List.getLast?_cons_cons] at hlast

theorem scanNamed_closed (hpost : Apart post) {c : Char} {text : Text} (hback : '\\' ∉ c :: text)
    (hfull : (scanNamed c text).2 = text.length) (hkind : (scanNamed c text).1 ≠ .function)
    (hclosed : (scanNamed c text).1 = .other → '(' ∈ text → text.getLast? = some ')') :
    scanNamed c (text ++ post) = scanNamed c text := by
  refine scanNamed_append (nameLength_append hpost.endsName hback) ?_ ?_
  · rintro - hhead
    exact hpost.ne_of_head? hhead (Or.inr (by decide)) rfl
  · intro inside hinside hurl
    rw [scanNamed_of_open hinside, hurl, Bool.true_and] at hfull hkind hclosed
    have hquote : startsQuote inside = false := by
      rw [← Bool.not_eq_true]
      intro hquote
      rw [hquote] at hkind
      exact hkind rfl
    simp only [hquote, Bool.not_false, if_true] at hfull hclosed
    have hmem : ∀ {d : Char}, d ∈ '(' :: inside → d ∈ text := fun hd =>
      List.mem_of_mem_drop (hinside ▸ hd)
    have hend := getLast?_inside hinside (hclosed trivial (hmem List.mem_cons_self))
    have hall : urlLength .padding 0 inside = inside.length := by
      have hlen := congrArg List.length hinside
      rw [List.length_drop, List.length_cons] at hlen
      omega
    obtain ⟨hsame, hlength⟩ :=
      url_closed (fun hin => hback (List.mem_cons_of_mem c (hmem (List.mem_cons_of_mem _ hin)))) hend hall
    exact ⟨hsame, fun _ => hlength⟩

/-- How a token is read from a text without backslashes does not depend on what stands behind the text. -/
theorem exists_reader_of_apart {c : Char} {mid : Text} (hback : '\\' ∉ c :: mid) :
    ∃ read, Reader c mid read ∧ ∀ post, Apart post → scan c (mid ++ post) = read (mid ++ post) := by
  obtain ⟨read, hread, hscan⟩ := exists_reader_of_agrees c mid
  refine ⟨read, hread, fun post hpost => hscan post (hpost.agrees ?_ ?_)⟩
  · rintro rfl
    exact absurd List.mem_cons_self hback
  · rintro - rfl
    exact absurd (List.mem_cons_of_mem c List.mem_cons_self) hback

/-- The last token of a text without backslashes, if it is closed, does not go on behind the text; only
white space goes on with white space. -/
theorem StandsBefore.of_closed {t : Token} (h : t.StandsBefore []) (hback : '\\' ∉ t.text)
    (hclosed : t.isOpen = false) (hpost : Apart post)
    (hhead : t.kind = .whitespace → ∀ c ∈ post.head?, isBlank c = false) : t.StandsBefore post := by
  obtain ⟨kind, text⟩ := t
  obtain ⟨c, more, rfl, hscan⟩ := h
  refine ⟨c, more, rfl, ?_⟩
  dsimp only at hback hclosed hscan ⊢
  have hmore : '\\' ∉ more := fun hmem => hback (List.mem_cons_of_mem c hmem)
  by_cases hfunction : kind = .function
  · subst hfunction
    rw [List.append_nil] at hscan
    exact scan_function_apart hpost hscan
  obtain ⟨read, hread, heq⟩ := exists_reader_of_apart hback
  rw [heq [] apart_nil, List.append_nil] at hscan
  rw [heq post hpost, ← hscan]
  obtain ⟨hkind, hlength⟩ := Prod.mk.inj hscan.symm
  cases hread with
  | blank =>
      dsimp only at hlength ⊢
      rw [List.takeWhile_append, if_pos hlength.symm, takeWhile_of_head? (hhead hkind),
        List.append_nil, hlength]
  | quote =>
      refine scanString_closed hmore hlength.symm fun hstring => ?_
      rw [hkind, hstring] at hclosed
      cases more with
      | nil => simp [isOpen] at hclosed
      | cons => simpa [isOpen] using hclosed
  | comment _ hstar =>
      obtain ⟨inside, rfl⟩ := List.head?_eq_some_iff.mp hstar
      simp only [List.cons_append, List.drop_succ_cons, List.drop_zero, List.length_cons] at hlength ⊢
      have hend : ['*', '/'] <:+ inside := by
        rw [hkind] at hclosed
        simpa [isOpen] using hclosed
      have hfull : commentLength inside = inside.length := by omega
      rw [commentLength_closed hend hfull, hfull]
  | named =>
      refine scanNamed_closed hpost hback hlength.symm (hkind ▸ hfunction) fun hother hopen => ?_
      rw [hkind, hother] at hclosed
      cases more with
      | nil => cases hopen
      | cons => simpa [isOpen, hopen] using hclosed
  | atKeyword | hash | digit =>
      dsimp only
      rw [nameLength_append hpost.endsName hmore]
  | commentClose | commentOpen | single => rfl

theorem getLast?_of_drop {text : Text} {n : Nat} {c : Char} (h : text.drop n = [c]) :
    text.getLast? = some c := by
  rw [← List.take_append_drop n text, h, List.getLast?_concat]

/-- A string before a semicolon ends with its quote. -/
theorem scanString_before_semicolon {quote : Char} {text : Text}
    (hfull : scanString quote (text ++ [';']) = (.string, text.length)) :
    text.getLast? = some quote := by
  simp only [scanString] at hfull
  split at hfull
  · rename_i hdrop
    have hlen := List.drop_eq_nil_iff.mp hdrop
    rw [(Prod.mk.inj hfull).2, List.length_append, List.length_singleton] at hlen
    omega
  · rename_i c rest hdrop
    split at hfull
    · rename_i hc
      have hinside := (Prod.mk.inj hfull).2
      rw [List.drop_append_of_le_length (by omega)] at hdrop
      have hlen : (text.drop (spanLength (stringStep quote) 0 (text ++ [';']))).length = 1 := by
        rw [List.length_drop]
        omega
      obtain ⟨d, hd⟩ := List.length_eq_one_iff.mp hlen
      rw [hd, List.singleton_append] at hdrop
      rw [getLast?_of_drop hd, (List.cons.inj hdrop).1, hc]
    · cases hfull

theorem commentLength_before_semicolon {text : Text}
    (hfull : commentLength (text ++ [';']) = text.length) : ['*', '/'] <:+ text := by
  induction text with
  | nil => simp [commentLength] at hfull
  | cons c rest ih =>
      rw [List.cons_append, commentLength_cons, List.length_cons] at hfull
      split at hfull
      · rename_i hmark
        obtain ⟨d, rfl⟩ : ∃ d, rest = [d] := List.length_eq_one_iff.mp (by omega)
        obtain ⟨rfl, hslash⟩ := hmark
        obtain rfl : d = '/' := Option.some.inj hslash
        exact List.suffix_rfl
      · exact (ih (by omega)).trans (List.suffix_cons c rest)

theorem urlLength_before_semicolon {part : UrlPart} {text : Text} (hback : '\\' ∉ text)
    (hfull : urlLength part 0 (text ++ [';']) = text.length) : text.getLast? = some ')' := by
  induction text generalizing part with
  | nil =>
      have hpos := urlLength_pos part 0 ';' []
      rw [List.nil_append, List.length_nil] at hfull
      omega
  | cons c rest ih =>
      have hc : c ≠ '\\' := fun heq => hback (heq ▸ List.mem_cons_self)
      obtain ⟨hmore, -⟩ := urlStep_of_ne hc part (rest ++ [';']) []
      rw [List.cons_append, urlLength, List.length_cons] at hfull
      split at hfull
      · rename_i hclose
        obtain rfl : rest = [] := List.length_eq_zero_iff.mp (by omega)
        rw [hclose]
        rfl
      · dsimp only at hfull
        rw [hmore] at hfull
        have hrest : urlLength (urlStep part c (rest ++ [';'])).1 0 (rest ++ [';']) = rest.length := by
          omega
        exact List.mem_getLast?_cons (ih (fun hmem => hback (List.mem_cons_of_mem c hmem)) hrest)

theorem scanNamed_before_semicolon {c : Char} {text : Text} (hback : '\\' ∉ c :: text)
    (hfull : scanNamed c (text ++ [';']) = (.other, text.length)) : text.getLast? = some ')' := by
  have hname : nameLength (c :: (text ++ [';'])) = nameLength (c :: text) :=
    nameLength_append (apart_semicolon []).endsName hback
  by_cases hopen : ((text ++ [';']).drop (nameLength (c :: (text ++ [';'])) - 1)).head? = some '('
  · obtain ⟨inside, hinside⟩ := List.head?_eq_some_iff.mp hopen
    rw [scanNamed_of_open hinside] at hfull
    split at hfull
    · have hlength := (Prod.mk.inj hfull).2
      rw [hname] at hlength hinside
      rw [List.drop_append_of_le_length (by omega)] at hinside
      cases hdrop : text.drop (nameLength (c :: text) - 1) with
      | nil =>
          have hlen := List.drop_eq_nil_iff.mp hdrop
          omega
      | cons d init =>
          rw [hdrop] at hinside
          obtain ⟨rfl, rfl⟩ := List.cons.inj hinside
          have hlen := congrArg List.length hdrop
          rw [List.length_drop, List.length_cons] at hlen
          have hslash : '\\' ∉ init := fun hmem =>
            hback (List.mem_cons_of_mem c (List.mem_of_mem_drop (hdrop ▸ List.mem_cons_of_mem _ hmem)))
          replace hlength : nameLength (c :: text) - 1 + 1 + urlLength .padding 0 (init ++ [';']) =
              text.length := hlength
          have hall : urlLength .padding 0 (init ++ [';']) = init.length := by omega
          rw [← List.take_append_drop (nameLength (c :: text) - 1) text, hdrop,
            List.getLast?_append_of_ne_nil _ (List.cons_ne_nil _ _)]
          exact List.mem_getLast?_cons (urlLength_before_semicolon hslash hall)
    · cases hfull
  · rw [scanNamed_of_head? hopen] at hfull
    cases hfull

theorem kind_scanNamed (c : Char) (rest : Text) :
    (scanNamed c rest).1 = .ident ∨ (scanNamed c rest).1 = .function ∨ (scanNamed c rest).1 = .other := by
  simp only [scanNamed]
  split
  · split <;> simp
  · simp

theorem scanString_eq_string {quote : Char} {text : Text} (hfull : (scanString quote text).2 = text.length) :
    (scanString quote text).1 = .string := by
  simp only [scanString] at hfull ⊢
  split
  · rfl
  · rename_i c rest hdrop
    have hlen := congrArg List.length hdrop
    rw [List.length_drop, List.length_cons] at hlen
    rw [hdrop] at hfull
    dsimp only at hfull
    split at hfull
    · rename_i hc
      rw [if_pos hc]
    · dsimp only at hfull
      omega

/-- The characters of a name without backslashes are no parentheses. -/
theorem not_mem_of_nameLength {text : Text} (hback : '\\' ∉ text) (hfull : nameLength text = text.length) :
    '(' ∉ text := by
  unfold nameLength at hfull
  induction text with
  | nil => simp
  | cons c rest ih =>
      have hc : c ≠ '\\' := fun heq => hback (heq ▸ List.mem_cons_self)
      rw [spanLength, nameStep, if_neg hc, List.length_cons] at hfull
      split at hfull
      · omega
      · rename_i more hmore
        split at hmore
        · rename_i hname
          obtain rfl := Option.some.inj hmore
          refine List.not_mem_cons_of_ne_of_not_mem ?_ (ih ?_ (by omega))
          · rintro rfl
            exact absurd hname (by decide)
          · exact fun hmem => hback (List.mem_cons_of_mem c hmem)
        · cases hmore

/-- An open token at the end of a text takes a semicolon that is put behind. -/
theorem StandsBefore.isOpen_eq_false {t : Token} (h : t.StandsBefore []) (hback : '\\' ∉ t.text)
    (hsemicolon : t.StandsBefore [';']) : t.isOpen = false := by
  obtain ⟨kind, text⟩ := t
  obtain ⟨c, more, rfl, hscan⟩ := h
  obtain ⟨d, others, htext, hscan'⟩ := hsemicolon
  obtain ⟨rfl, rfl⟩ := List.cons.inj htext
  dsimp only at hback hscan hscan' ⊢
  have hmore : '\\' ∉ more := fun hmem => hback (List.mem_cons_of_mem c hmem)
  obtain ⟨read, hread, heq⟩ := exists_reader_of_apart hback
  rw [heq [] apart_nil, List.append_nil] at hscan
  rw [heq _ (apart_semicolon [])] at hscan'
  obtain ⟨hkind, hlength⟩ := Prod.mk.inj hscan.symm
  cases hread with
  | quote =>
      have hstring := scanString_eq_string hlength.symm
      rw [hkind, hstring] at hscan'
      have hlast := scanString_before_semicolon hscan'
      rw [hkind, hstring]
      cases more with
      | nil => cases hlast
      | cons => simpa [isOpen] using hlast
  | comment _ hstar =>
      obtain ⟨inside, rfl⟩ := List.head?_eq_some_iff.mp hstar
      have hfull := (Prod.mk.inj hscan').2
      simp only [List.cons_append, List.drop_succ_cons, List.drop_zero, List.length_cons] at hfull
      have hend : ['*', '/'] <:+ inside := commentLength_before_semicolon (by omega)
      simpa [hkind, isOpen] using hend
  | named =>
      rcases kind_scanNamed c more with hident | hfunction | hother
      · rw [hkind, hident]
        rfl
      · rw [hkind, hfunction]
        rfl
      · rw [hkind, hother] at hscan' ⊢
        have hlast : (c :: more).getLast? = some ')' :=
          List.mem_getLast?_cons (scanNamed_before_semicolon hback hscan')
        simp [isOpen, hlast]
  | hash hhash =>
      have hopen := not_mem_of_nameLength hmore hlength.symm
      simp [hkind, isOpen, hopen, hhash]
  | digit hdigit =>
      have hopen := not_mem_of_nameLength hmore hlength.symm
      have hne : '(' ≠ c := by
        rintro rfl
        exact absurd hdigit (by decide)
      simp [hkind, isOpen, hopen, hne]
  | single =>
      obtain rfl : more = [] := List.length_eq_zero_iff.mp hlength
      rw [hkind]
      by_cases hopen : c = '('
      · subst hopen
        rfl
      · have hsingle := charKind c
        generalize kindOfChar c = kind' at hsingle
        cases hsingle <;> simp [isOpen, Ne.symm hopen]
  | _ => rw [hkind]; rfl

/-- At the end of a text without backslashes just the open tokens take a semicolon that is put behind. -/
theorem StandsBefore.isOpen_eq_false_iff {t : Token} (h : t.StandsBefore []) (hback : '\\' ∉ t.text) :
    t.isOpen = false ↔ t.StandsBefore [';'] := by
  refine ⟨fun hclosed => ?_, h.isOpen_eq_false hback⟩
  exact h.of_closed hback hclosed (apart_semicolon []) fun _ => by rintro c ⟨⟩; decide

end Token
end FluidSizing

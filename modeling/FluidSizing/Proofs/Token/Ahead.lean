import FluidSizing.Proofs.Token.Last
import Mathlib.Data.List.TakeWhile

/-! Tokens with more text behind. A token that ends before the end of its text has seen what ended it, so
it stays when text is put behind that does not go on with a name (`scan_ahead`). The only token that
could change is the last one of the text. -/

namespace FluidSizing
namespace Token

/-- Nothing before the text goes on with it: it starts with no character of a name, no backslash, no part
of a mark that a token before it may have begun, and no opening parenthesis. -/
structure Apart (text : Text) : Prop where
  head : ∀ c ∈ text.head?, isNameChar c = false ∧ c ∉ ['\\', '*', '>', '(']
  mark : ['!', '-', '-'].isPrefixOf text = false

/-- No name goes on with the text. -/
def EndsName (text : Text) : Prop := ∀ c ∈ text.head?, isNameChar c = false ∧ c ≠ '\\'

theorem apart_nil : Apart [] := ⟨by simp, rfl⟩

theorem Apart.ne_of_head? {text : Text} (h : Apart text) {c d : Char} (hc : text.head? = some c)
    (hd : isNameChar d = true ∨ d ∈ ['\\', '*', '>', '(']) : c ≠ d := by
  rintro rfl
  obtain ⟨hname, hmem⟩ := h.head c hc
  rcases hd with hd | hd
  · rw [hname] at hd
    cases hd
  · exact hmem hd

theorem Apart.endsName {text : Text} (h : Apart text) : EndsName text := fun c hc =>
  ⟨(h.head c hc).1, h.ne_of_head? hc (Or.inr (by decide))⟩

theorem apart_cons {c : Char} (hname : isNameChar c = false) (hmem : c ∉ ['\\', '*', '>', '('])
    (hmark : c ≠ '!') (rest : Text) : Apart (c :: rest) := by
  refine ⟨?_, by simp [List.isPrefixOf, hmark.symm]⟩
  rintro d ⟨⟩
  exact ⟨hname, hmem⟩

theorem apart_semicolon (rest : Text) : Apart (';' :: rest) :=
  apart_cons (by decide) (by decide) (by decide) rest

theorem apart_of_isBlank {c : Char} (hc : isBlank c = true) (rest : Text) : Apart (c :: rest) := by
  simp only [isBlank, Bool.or_eq_true, decide_eq_true_eq] at hc
  rcases hc with (((rfl | rfl) | rfl) | rfl) | rfl <;> exact apart_cons (by decide) (by decide) (by decide) _

variable {post : Text}

theorem takeWhile_of_head? {p : Char → Bool} {text : Text} (h : ∀ c ∈ text.head?, p c = false) :
    text.takeWhile p = [] := by
  cases text with
  | nil => rfl
  | cons c rest => exact List.takeWhile_cons_of_neg (by simp [h c rfl])

theorem takeWhile_ahead {p : Char → Bool} {text : Text}
    (h : (text.takeWhile p).length < text.length) : (text ++ post).takeWhile p = text.takeWhile p := by
  rw [List.takeWhile_append, if_neg (Nat.ne_of_lt h)]

theorem newlineLength_ahead {text : Text} (h : newlineLength text < text.length) :
    newlineLength (text ++ post) = newlineLength text := by
  match text with
  | [] => cases h
  | [c] =>
      have hline : isNewline c = false := by
        by_contra hline
        rw [Bool.not_eq_false] at hline
        simp [newlineLength, hline] at h
      have hne : c ≠ '\r' := by
        rintro rfl
        exact absurd hline (by decide)
      simp [newlineLength, hne, hline]
  | c :: d :: rest =>
      by_cases hpair : c = '\r' ∧ d = '\n'
      · obtain ⟨rfl, rfl⟩ := hpair
        rfl
      · simp only [List.cons_append, newlineLength]
        split <;> simp_all

theorem spaceLength_ahead {text : Text} (h : spaceLength text < text.length) :
    spaceLength (text ++ post) = spaceLength text := by
  cases text with
  | nil => cases h
  | cons c rest =>
      rw [spaceLength] at h
      rw [List.cons_append, spaceLength, spaceLength]
      split
      · rfl
      · rename_i hspace
        rw [if_neg hspace] at h
        rw [← List.cons_append, newlineLength_ahead h]

theorem hexDigits_ahead {text : Text} (h : (hexDigits text).length < text.length) :
    hexDigits (text ++ post) = hexDigits text := by
  unfold hexDigits at h ⊢
  rw [List.takeWhile_append]
  split
  · rename_i hall
    have htext : text.takeWhile isHexDigit = text := (List.takeWhile_prefix _).eq_of_length hall
    rw [htext, List.length_take] at h
    rw [htext, List.take_append_of_le_length (by omega)]
  · rfl

theorem escapeLength_ahead {text : Text} (h : escapeLength text < text.length) :
    escapeLength (text ++ post) = escapeLength text := by
  have hdigits : (hexDigits text).length < text.length := by
    have hle : (hexDigits text).length ≤ escapeLength text := by
      unfold escapeLength
      split
      · rename_i hnil
        rw [hnil]
        exact Nat.zero_le _
      · exact Nat.le_add_right ..
    omega
  unfold escapeLength at h ⊢
  rw [hexDigits_ahead hdigits]
  split at h
  · rw [List.length_append]
    omega
  · rw [List.drop_append_of_le_length (Nat.le_of_lt hdigits),
      spaceLength_ahead (by rw [List.length_drop]; omega)]

theorem startsNewline_ahead {text : Text} (h : text ≠ []) :
    startsNewline (text ++ post) = startsNewline text := by
  cases text with
  | nil => exact absurd rfl h
  | cons c rest => rfl

/-- A step of a span that does not reach the end of the text, and one that ends the span, do not see what
is put behind. -/
structure StepAhead (step : Char → Text → Option Nat) : Prop where
  more : ∀ {c : Char} {rest post : Text} {more : Nat}, step c rest = some more → more < rest.length →
    step c (rest ++ post) = some more
  stop : ∀ {c : Char} {rest post : Text}, step c rest = none → step c (rest ++ post) = none

theorem stepAhead_nameStep : StepAhead nameStep where
  more := by
    intro c rest post more hmore hlt
    have hne : rest ≠ [] := by
      rintro rfl
      cases hlt
    unfold nameStep at hmore ⊢
    rw [startsNewline_ahead hne]
    split at hmore
    · rename_i hback
      split at hmore
      · cases hmore
      · rename_i hline
        obtain rfl := Option.some.inj hmore
        rw [if_pos hback, if_neg hline, escapeLength_ahead hlt]
    · rename_i hback
      rw [if_neg hback]
      exact hmore
  stop := by
    intro c rest post hstop
    unfold nameStep at hstop ⊢
    split at hstop
    · rename_i hback
      split at hstop
      · rename_i hline
        have hne : rest ≠ [] := by
          rintro rfl
          cases hline
        rw [if_pos hback, startsNewline_ahead hne, if_pos hline]
      · cases hstop
    · rename_i hback
      rw [if_neg hback]
      exact hstop

theorem stepAhead_stringStep (quote : Char) : StepAhead (stringStep quote) where
  more := by
    intro c rest post more hmore hlt
    have hne : rest ≠ [] := by
      rintro rfl
      cases hlt
    unfold stringStep at hmore ⊢
    rw [startsNewline_ahead hne]
    split at hmore
    · cases hmore
    · rename_i hend
      rw [if_neg hend]
      split at hmore
      · rename_i hback
        obtain rfl := Option.some.inj hmore
        rw [if_pos hback]
        split
        · rename_i hline
          rw [if_pos hline] at hlt
          rw [newlineLength_ahead hlt]
        · rename_i hline
          rw [if_neg hline] at hlt
          rw [escapeLength_ahead hlt]
      · rename_i hback
        rw [if_neg hback]
        exact hmore
  stop := by
    intro c rest post hstop
    unfold stringStep at hstop ⊢
    split at hstop
    · rename_i hend
      rw [if_pos hend]
    · split at hstop <;> cases hstop

theorem spanLength_of_length_le (step : Char → Text → Option Nat) {skip : Nat} {text : Text}
    (h : text.length ≤ skip) : spanLength step skip text = text.length := by
  induction text generalizing skip with
  | nil => simp [spanLength]
  | cons c rest ih =>
      rw [List.length_cons] at h
      obtain ⟨skip, rfl⟩ : ∃ k, skip = k + 1 := ⟨skip - 1, by omega⟩
      rw [spanLength, ih (by omega), List.length_cons, Nat.add_comm]

theorem spanLength_ahead {step : Char → Text → Option Nat} (hstep : StepAhead step) {skip : Nat}
    {text : Text} (h : spanLength step skip text < text.length) :
    spanLength step skip (text ++ post) = spanLength step skip text := by
  induction text generalizing skip with
  | nil => cases h
  | cons c rest ih =>
      rw [List.length_cons] at h
      cases skip with
      | succ skip =>
          rw [spanLength] at h
          rw [List.cons_append, spanLength, spanLength, ih (by omega)]
      | zero =>
          rw [List.cons_append, spanLength, spanLength]
          cases hmore : step c rest with
          | none => rw [hstep.stop hmore]
          | some more =>
              simp only [spanLength, hmore] at h
              have hlt : more < rest.length := by
                by_contra hge
                rw [spanLength_of_length_le step (Nat.le_of_not_lt hge)] at h
                omega
              rw [hstep.more hmore hlt]
              dsimp only
              rw [ih (by omega)]

theorem nameLength_ahead {text : Text} (h : nameLength text < text.length) :
    nameLength (text ++ post) = nameLength text :=
  spanLength_ahead stepAhead_nameStep h

/-- A string does not see what is put behind its end. -/
theorem scanString_append {quote : Char} {rest : Text}
    (hlt : spanLength (stringStep quote) 0 rest < rest.length) :
    scanString quote (rest ++ post) = scanString quote rest := by
  simp only [scanString, spanLength_ahead (stepAhead_stringStep quote) hlt,
    List.drop_append_of_le_length (Nat.le_of_lt hlt)]
  cases hdrop : rest.drop (spanLength (stringStep quote) 0 rest) with
  | nil =>
      have hlen := List.drop_eq_nil_iff.mp hdrop
      omega
  | cons c more => rfl

theorem spanLength_le_scanString (quote : Char) (rest : Text) :
    spanLength (stringStep quote) 0 rest ≤ (scanString quote rest).2 := by
  simp only [scanString]
  split
  · exact Nat.le_refl _
  · split <;> omega

theorem scanString_ahead {quote : Char} {rest : Text} (h : (scanString quote rest).2 < rest.length) :
    scanString quote (rest ++ post) = scanString quote rest :=
  scanString_append (Nat.lt_of_le_of_lt (spanLength_le_scanString quote rest) h)

theorem commentLength_ahead {text : Text} (h : commentLength text < text.length) :
    commentLength (text ++ post) = commentLength text := by
  induction text with
  | nil => cases h
  | cons c rest ih =>
      rw [commentLength_cons, List.length_cons] at h
      have hne : rest ≠ [] := by
        rintro rfl
        simp [commentLength] at h
      have hhead : (rest ++ post).head? = rest.head? := List.head?_append_of_ne_nil _ hne
      rw [List.cons_append, commentLength_cons, commentLength_cons, hhead]
      split
      · rfl
      · rename_i hend
        rw [if_neg hend] at h
        rw [ih (by omega)]

theorem urlLength_of_length_le (part : UrlPart) {skip : Nat} {text : Text}
    (h : text.length ≤ skip) : urlLength part skip text = text.length := by
  induction text generalizing skip with
  | nil => simp [urlLength]
  | cons c rest ih =>
      rw [List.length_cons] at h
      obtain ⟨skip, rfl⟩ : ∃ k, skip = k + 1 := ⟨skip - 1, by omega⟩
      rw [urlLength, ih (by omega), List.length_cons, Nat.add_comm]

/-- A character of a URL with its escape inside the text does not see what is put behind. -/
theorem urlStep_ahead {part : UrlPart} {c : Char} {rest : Text} (hne : rest ≠ [])
    (h : (urlStep part c rest).2 < rest.length) : urlStep part c (rest ++ post) = urlStep part c rest := by
  have hhead : (rest ++ post).head? = rest.head? := List.head?_append_of_ne_nil _ hne
  have hbody : (urlBodyStep c rest).2 < rest.length →
      urlBodyStep c (rest ++ post) = urlBodyStep c rest := by
    intro hlt
    unfold urlBodyStep at hlt ⊢
    rw [startsNewline_ahead hne]
    by_cases hplain : c = '\\' ∧ isBlank c = false ∧ breaksUrl c = false ∧ startsNewline rest = false
    · obtain ⟨hback, hblank, hbreak, hline⟩ := hplain
      simp only [hback] at hblank hbreak
      simp only [hback, hblank, hbreak, hline, Bool.false_eq_true, if_false, if_true] at hlt ⊢
      rw [escapeLength_ahead hlt]
    · split_ifs <;> simp_all
  cases part with
  | padding =>
      unfold urlStep at h ⊢
      dsimp only at h ⊢
      split
      · rfl
      · rename_i hblank
        rw [if_neg hblank] at h
        exact hbody h
  | body => exact hbody h
  | ending => rfl
  | broken => simp only [urlStep, hhead]

theorem urlLength_ahead {part : UrlPart} {skip : Nat} {text : Text}
    (h : urlLength part skip text < text.length) :
    urlLength part skip (text ++ post) = urlLength part skip text := by
  induction text generalizing part skip with
  | nil => cases h
  | cons c rest ih =>
      rw [List.length_cons] at h
      cases skip with
      | succ skip =>
          rw [urlLength] at h
          rw [List.cons_append, urlLength, urlLength, ih (by omega)]
      | zero =>
          rw [List.cons_append, urlLength, urlLength]
          split
          · rfl
          · rename_i hclose
            rw [urlLength, if_neg hclose] at h
            dsimp only at h ⊢
            have hlt : (urlStep part c rest).2 < rest.length := by
              by_contra hge
              rw [urlLength_of_length_le _ (Nat.le_of_not_lt hge)] at h
              omega
            have hne : rest ≠ [] := List.length_pos_iff.mp (by omega)
            rw [urlStep_ahead hne hlt, ih (by omega)]

theorem startsQuote_ahead {text : Text} (h : text.dropWhile isBlank ≠ []) :
    startsQuote (text ++ post) = startsQuote text := by
  obtain ⟨c, rest, hdrop⟩ := List.exists_cons_of_ne_nil h
  have happend : (text ++ post).dropWhile isBlank = c :: (rest ++ post) := by
    rw [List.dropWhile_append, hdrop]
    rfl
  rw [startsQuote, startsQuote, happend, hdrop]

/-- A URL of white space goes on to the end of the text. -/
theorem urlLength_blank {text : Text} (h : ∀ c ∈ text, isBlank c = true) :
    urlLength .padding 0 text = text.length := by
  induction text with
  | nil => rfl
  | cons c rest ih =>
      obtain ⟨hc, hrest⟩ := List.forall_mem_cons.mp h
      have hne : c ≠ ')' := by
        rintro rfl
        exact absurd hc (by decide)
      rw [urlLength, if_neg hne, urlStep, if_pos hc]
      dsimp only
      rw [ih hrest, List.length_cons, Nat.add_comm]

theorem scanNamed_ahead {c : Char} {rest : Text} (h : (scanNamed c rest).2 < rest.length) :
    scanNamed c (rest ++ post) = scanNamed c rest := by
  have hmore : nameLength (c :: rest) - 1 < rest.length := by
    have hle : nameLength (c :: rest) - 1 ≤ (scanNamed c rest).2 := by
      simp only [scanNamed]
      split
      · split <;> omega
      · exact Nat.le_refl _
    omega
  have hname : nameLength (c :: (rest ++ post)) = nameLength (c :: rest) := by
    rw [← List.cons_append]
    exact nameLength_ahead (by rw [List.length_cons]; omega)
  refine scanNamed_append hname ?_ ?_
  · intro hnil
    rw [List.drop_eq_nil_iff] at hnil
    omega
  · intro inside hinside hurl
    have hlen := congrArg List.length hinside
    rw [List.length_drop, List.length_cons] at hlen
    rw [scanNamed_of_open hinside, hurl, Bool.true_and] at h
    -- an unquoted URL inside of the text has shown that it is one
    have hnonblank : inside.dropWhile isBlank ≠ [] := by
      intro hnil
      have hblank : ∀ d ∈ inside, isBlank d = true := List.dropWhile_eq_nil_iff.mp hnil
      rw [startsQuote, hnil, urlLength_blank hblank] at h
      simp only [Bool.not_false, if_true] at h
      omega
    refine ⟨startsQuote_ahead hnonblank, fun hquote => urlLength_ahead ?_⟩
    simp only [hquote, Bool.not_false, if_true] at h
    omega

theorem startsName_apart (hpost : Apart post) {c : Char} {rest : Text}
    (hback : c = '\\' → rest ≠ []) : startsName (c :: (rest ++ post)) = startsName (c :: rest) := by
  cases rest with
  | cons d rest => rfl
  | nil =>
      have hc : c ≠ '\\' := fun heq => hback heq rfl
      cases post with
      | nil => rfl
      | cons d post =>
          obtain ⟨hname, hmem⟩ := hpost.head d rfl
          simp only [isNameChar, Bool.or_eq_false_iff, decide_eq_false_iff_not] at hname
          have hslash : d ≠ '\\' := hpost.ne_of_head? rfl (Or.inr (by decide))
          by_cases hhyphen : c = '-'
          · simp [startsName, hhyphen, hname, hslash]
          · simp [startsName, hhyphen, hc]

/-- A pattern is not begun in a text and ended behind it, where the rest of the pattern does not stand
behind. -/
theorem isPrefixOf_append_of_suffix {pattern text : Text}
    (h : ∀ front back, pattern = front ++ back → back ≠ [] → back.isPrefixOf post = false) :
    pattern.isPrefixOf (text ++ post) = pattern.isPrefixOf text := by
  induction text generalizing pattern with
  | nil =>
      cases pattern with
      | nil => rfl
      | cons d pattern => exact h [] (d :: pattern) rfl (List.cons_ne_nil _ _)
  | cons c text ih =>
      cases pattern with
      | nil => rfl
      | cons d pattern =>
          have hrest := ih fun front back hback => h (d :: front) back (congrArg (d :: ·) hback)
          simp only [List.cons_append, List.isPrefixOf, hrest]

/-- Which reader a character has does not depend on text put behind. A backslash at the end of the text
would escape the first character of it. -/
theorem Apart.agrees (hpost : Apart post) {c : Char} {rest : Text} (hback : c = '\\' → rest ≠ [])
    (hkeyword : c = '@' ∨ c = '#' → rest ≠ ['\\']) : Agrees c rest post := by
  have hne : ∀ {d : Char} (back : Text), isNameChar d = true ∨ d ∈ ['\\', '*', '>', '('] →
      (d :: back).isPrefixOf post = false := by
    intro d back hd
    cases hp : post with
    | nil => rfl
    | cons e rest =>
        have hde := hpost.ne_of_head? (by rw [hp]; rfl) hd
        simp [List.isPrefixOf, hde.symm]
  refine ⟨fun _ => ?_, fun _ => ?_, fun _ => ?_, fun hc => ?_, startsName_apart hpost hback⟩
  · cases rest with
    | cons d rest => rfl
    | nil =>
        have hstar : post.head? ≠ some '*' := fun h =>
          hpost.ne_of_head? h (Or.inr (by decide)) rfl
        simpa using hstar
  · apply isPrefixOf_append_of_suffix
    intro front back heq hnil
    match front, back with
    | _, [] => exact absurd rfl hnil
    | [], d :: back => cases heq; exact hne _ (Or.inl (by decide))
    | [_], d :: back => cases heq; exact hne _ (Or.inr (by decide))
    | _ :: _ :: front, d :: back => simp at heq
  · apply isPrefixOf_append_of_suffix
    intro front back heq hnil
    match front, back with
    | _, [] => exact absurd rfl hnil
    | [], d :: back => cases heq; exact hpost.mark
    | [_], d :: back => cases heq; exact hne _ (Or.inl (by decide))
    | [_, _], d :: back => cases heq; exact hne _ (Or.inl (by decide))
    | _ :: _ :: _ :: front, d :: back => simp at heq
  · cases rest with
    | cons d rest =>
        exact startsName_apart hpost fun hd hrest => hkeyword hc (by rw [hd, hrest])
    | nil =>
        cases hp : post with
        | nil => rfl
        | cons d more =>
            rw [hp] at hpost
            obtain ⟨hname, hmem⟩ := hpost.head d rfl
            have hslash : d ≠ '\\' := hpost.ne_of_head? rfl (Or.inr (by decide))
            simp only [isNameChar, Bool.or_eq_false_iff, decide_eq_false_iff_not] at hname
            simp [startsName, hname, hslash]

theorem agrees_nil (c : Char) (mid : Text) : Agrees c mid [] :=
  ⟨by simp, by simp, by simp, by simp, by simp⟩

/-- A token that ends before the end of the text stays when other text is put behind. -/
theorem scan_ahead (hpost : Apart post) {c : Char} {rest : Text}
    (h : (scan c rest).2 < rest.length) : scan c (rest ++ post) = scan c rest := by
  have hne : rest ≠ [] := by
    rintro rfl
    cases h
  have hkeyword : c = '@' ∨ c = '#' → rest ≠ ['\\'] := by
    rintro hc rfl
    rcases hc with rfl | rfl <;> exact absurd h (by decide)
  obtain ⟨read, hread, hscan⟩ := exists_reader_of_agrees c rest
  have hsame := hscan [] (agrees_nil _ _)
  rw [List.append_nil] at hsame
  rw [hscan post (hpost.agrees (fun _ => hne) hkeyword), hsame]
  rw [hsame] at h
  cases hread with
  | blank =>
      dsimp only at h ⊢
      rw [takeWhile_ahead h]
  | quote => exact scanString_ahead h
  | comment _ hstar =>
      obtain ⟨more, rfl⟩ := List.head?_eq_some_iff.mp hstar
      simp only [List.cons_append, List.drop_succ_cons, List.drop_zero, List.length_cons] at h ⊢
      rw [commentLength_ahead (by omega)]
  | named => exact scanNamed_ahead h
  | atKeyword | hash | digit =>
      dsimp only at h ⊢
      rw [nameLength_ahead h]
  | commentClose | commentOpen | single => rfl

/-- A function that ends with the text stays when other text is put behind. -/
theorem scan_function_apart (hpost : Apart post) {c : Char} {more : Text}
    (h : scan c more = (.function, more.length)) :
    scan c (more ++ post) = (.function, more.length) := by
  obtain ⟨read, hread, hscan⟩ := exists_reader_of_agrees c more
  have hsame := hscan [] (agrees_nil _ _)
  rw [List.append_nil, h] at hsame
  cases hread with
  | quote =>
      have hkind := congrArg (fun result : Kind × Nat => result.1 = .function) hsame
      simp only [scanString] at hkind
      split at hkind
      · simp at hkind
      · split at hkind <;> simp at hkind
  | named =>
      by_cases hopen : (more.drop (nameLength (c :: more) - 1)).head? = some '('
      · obtain ⟨inside, hinside⟩ := List.head?_eq_some_iff.mp hopen
        have hlen := congrArg List.length hinside
        rw [List.length_drop, List.length_cons] at hlen
        rw [scanNamed_of_open hinside] at hsame
        split at hsame
        · cases hsame
        · rename_i hurl
          have hmore := (Prod.mk.inj hsame).2
          obtain rfl : inside = [] := List.length_eq_zero_iff.mp (by omega)
          have hname : nameLength (c :: (more ++ post)) = nameLength (c :: more) := by
            rw [← List.cons_append]
            exact nameLength_ahead (by rw [List.length_cons]; omega)
          have hdrop : (more ++ post).drop (nameLength (c :: (more ++ post)) - 1) = '(' :: post := by
            rw [hname, List.drop_append_of_le_length (by omega), hinside]
            rfl
          have hnotUrl : isUrl (c :: more.take (nameLength (c :: more) - 1)) = false := by
            simpa [startsQuote] using hurl
          have hmem : '(' ∈ more := List.mem_of_mem_drop (hinside ▸ List.mem_cons_self)
          have hne : more ≠ [] := List.ne_nil_of_mem hmem
          rw [hscan post (hpost.agrees (fun _ => hne) ?_), scanNamed_of_open hdrop, hname,
            List.take_append_of_le_length (by omega), hnotUrl]
          · simp only [Bool.false_and, Bool.false_eq_true, if_false]
            rw [hmore]
          · rintro - rfl
            exact absurd hmem (by decide)
      · rw [scanNamed_of_head? hopen] at hsame
        cases hsame
  | single =>
      have hkind := charKind c
      rw [← (Prod.mk.inj hsame).1] at hkind
      cases hkind
  | _ => cases hsame

/-- A token before other text stays when more text is put behind that. -/
theorem StandsBefore.ahead {t : Token} {rest : Text} (h : t.StandsBefore rest) (hne : rest ≠ [])
    (hpost : Apart post) : t.StandsBefore (rest ++ post) := by
  obtain ⟨c, more, htext, hscan⟩ := h
  have hpos := List.length_pos_iff.mpr hne
  refine ⟨c, more, htext, ?_⟩
  rw [← List.append_assoc, scan_ahead hpost, hscan]
  rw [hscan, List.length_append]
  omega

end Token
end FluidSizing

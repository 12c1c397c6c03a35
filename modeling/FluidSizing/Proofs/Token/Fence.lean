import FluidSizing.Token.Scan
import Mathlib.Data.List.Basic
import Mathlib.Tactic.SplitIfs

/-! How far a token looks ahead. A fence is a separator or a closing bracket: no name, number or escape
goes on with it, so what stands behind a fence has no influence on the tokens before it. `scan_fenced`
says that a token that ends before a fence, or before the end of the text, stays when the text from
there on is replaced by any other that is empty or starts with a fence. -/

namespace FluidSizing
namespace Token

/-- The separators and the closing brackets. -/
def isFence (c : Char) : Bool :=
  c = ',' || c = ':' || c = ';' || c = '/' || c = ')' || c = ']' || c = '\x7d'

/-- The text is empty or starts with a fence. -/
def Fenced : Text → Prop
  | [] => True
  | c :: _ => isFence c = true

theorem fenced_nil : Fenced [] := trivial

theorem isFence_iff {c : Char} : isFence c = true ↔
    c = ',' ∨ c = ':' ∨ c = ';' ∨ c = '/' ∨ c = ')' ∨ c = ']' ∨ c = '\x7d' := by
  simp only [isFence, Bool.or_eq_true, decide_eq_true_eq, or_assoc]

theorem fenced_close (bracket : Bracket) (rest : Text) : Fenced (bracket.close :: rest) := by
  cases bracket <;> exact isFence_iff.mpr (by decide)

/-- What a fence is not, for each class of characters that the tokens tell apart. -/
theorem isFence_classes {c : Char} (h : isFence c = true) :
    isBlank c = false ∧ isNewline c = false ∧ isNameStart c = false ∧ isNameChar c = false ∧
      isHexDigit c = false := by
  rcases isFence_iff.mp h with rfl | rfl | rfl | rfl | rfl | rfl | rfl <;> decide

theorem ne_of_isFence {c d : Char} (h : isFence c = true) (hd : isFence d = false) : c ≠ d := by
  rintro rfl
  rw [h] at hd
  exact Bool.noConfusion hd

theorem Fenced.head_ne {post : Text} (h : Fenced post) {d : Char} (hd : isFence d = false) :
    post.head? ≠ some d := by
  cases post with
  | nil => simp
  | cons c rest =>
      intro heq
      exact ne_of_isFence h hd (Option.some.inj heq)

variable {post post' : Text}

theorem takeWhile_append_fenced (p : Char → Bool) (hp : ∀ c, isFence c = true → p c = false)
    (h : Fenced post) (mid : Text) : (mid ++ post).takeWhile p = mid.takeWhile p := by
  induction mid with
  | nil =>
      cases post with
      | nil => rfl
      | cons c rest => exact List.takeWhile_cons_of_neg (by rw [hp c h]; exact Bool.false_ne_true)
  | cons c mid ih => simp only [List.cons_append, List.takeWhile_cons, ih]

theorem head?_append_fenced (h : Fenced post) {d : Char} (hd : isFence d = false) (mid : Text) :
    (mid ++ post).head? = some d ↔ mid.head? = some d := by
  cases mid with
  | nil => simpa using h.head_ne hd
  | cons c mid => rfl

theorem isPrefixOf_append_fenced (h : Fenced post) (pattern mid : Text)
    (hpattern : pattern.any isFence = false) :
    pattern.isPrefixOf (mid ++ post) = pattern.isPrefixOf mid := by
  induction pattern generalizing mid with
  | nil => simp
  | cons d pattern ih =>
      rw [List.any_cons, Bool.or_eq_false_iff] at hpattern
      cases mid with
      | nil =>
          cases post with
          | nil => rfl
          | cons c rest =>
              have hne : d ≠ c := (ne_of_isFence h hpattern.1).symm
              simp [List.isPrefixOf, hne]
      | cons c mid => simp only [List.cons_append, List.isPrefixOf, ih mid hpattern.2]

theorem hexDigits_append_fenced (h : Fenced post) (mid : Text) :
    hexDigits (mid ++ post) = hexDigits mid := by
  rw [hexDigits, takeWhile_append_fenced _ (fun c hc => (isFence_classes hc).2.2.2.2) h, hexDigits]

theorem startsNewline_append_fenced (h : Fenced post) (mid : Text) :
    startsNewline (mid ++ post) = startsNewline mid := by
  cases mid with
  | cons c mid => rfl
  | nil =>
      cases post with
      | nil => rfl
      | cons c rest => exact (isFence_classes h).2.1

theorem newlineLength_append_fenced (h : Fenced post) (mid : Text) :
    newlineLength (mid ++ post) = newlineLength mid := by
  match mid with
  | [] =>
      cases post with
      | nil => rfl
      | cons c rest =>
          have hc := (isFence_classes h).2.1
          have hr : c ≠ '\r' := ne_of_isFence h (by decide)
          unfold newlineLength
          split <;> simp_all
  | [c] =>
      have hpost : post.head? ≠ some '\n' := h.head_ne (by decide)
      cases post with
      | nil => rfl
      | cons d rest =>
          have hd : d ≠ '\n' := fun heq => hpost (by rw [heq]; rfl)
          by_cases hc : c = '\r'
          · subst hc
            simp [newlineLength, hd]
          · simp [newlineLength, hc]
  | c :: d :: mid =>
      by_cases hc : c = '\r' ∧ d = '\n'
      · obtain ⟨rfl, rfl⟩ := hc
        rfl
      · simp only [List.cons_append, newlineLength]
        split <;> simp_all

theorem spaceLength_append_fenced (h : Fenced post) (mid : Text) :
    spaceLength (mid ++ post) = spaceLength mid := by
  cases mid with
  | cons c mid =>
      rw [List.cons_append, spaceLength, spaceLength, ← List.cons_append,
        newlineLength_append_fenced h]
  | nil =>
      cases post with
      | nil => rfl
      | cons c rest =>
          have hnew := newlineLength_append_fenced h []
          have hs : c ≠ ' ' := ne_of_isFence h (by decide)
          have ht : c ≠ '\t' := ne_of_isFence h (by decide)
          simpa [spaceLength, hs, ht, newlineLength] using hnew

theorem hexDigits_length_le (text : Text) : (hexDigits text).length ≤ text.length := by
  have h := (List.takeWhile_sublist isHexDigit (l := text)).length_le
  exact Nat.le_trans (List.length_take_le' 6 _) h

theorem escapeLength_append_fenced (h : Fenced post) {mid : Text} (hmid : mid ≠ []) :
    escapeLength (mid ++ post) = escapeLength mid := by
  have hlen := hexDigits_length_le mid
  unfold escapeLength
  rw [hexDigits_append_fenced h]
  split
  · have hpos : 0 < mid.length := List.length_pos_iff.mpr hmid
    rw [List.length_append]
    omega
  · rename_i digits hdigits
    rw [List.drop_append_of_le_length hlen, spaceLength_append_fenced h]

theorem escapeLength_fenced (h : Fenced post) : escapeLength post = min post.length 1 := by
  have hdigits : hexDigits post = [] := hexDigits_append_fenced h []
  rw [escapeLength, hdigits]

/-- What a step of a span may look at: what stands before a fence, and of the text from the fence on
only whether there is any, right behind a backslash. Fences all end the span or none does. -/
structure LocalStep (step : Char → Text → Option Nat) : Prop where
  behind : ∀ {c : Char} {mid post : Text}, Fenced post → mid ≠ [] ∨ c ≠ '\\' →
    step c (mid ++ post) = step c mid
  escape : ∀ {post : Text}, Fenced post → step '\\' post = some (min post.length 1)
  fence : ∀ {c d : Char} {rest rest' : Text}, isFence c = true → isFence d = true →
    step c rest = none → step d rest' = none

theorem localStep_nameStep : LocalStep nameStep where
  behind := by
    intro c mid post h hor
    unfold nameStep
    by_cases hc : c = '\\'
    · have hmid : mid ≠ [] := hor.resolve_right fun hne => hne hc
      rw [if_pos hc, if_pos hc, startsNewline_append_fenced h, escapeLength_append_fenced h hmid]
    · rw [if_neg hc, if_neg hc]
  escape := by
    intro post h
    have hnew : startsNewline post = false := startsNewline_append_fenced h []
    simp [nameStep, hnew, escapeLength_fenced h]
  fence := by
    intro c d rest rest' _ hd _
    have hname := (isFence_classes hd).2.2.2.1
    have hne : d ≠ '\\' := ne_of_isFence hd (by decide)
    simp [nameStep, hne, hname]

theorem localStep_stringStep {quote : Char} (hquote : quote = '\x22' ∨ quote = '\x27') :
    LocalStep (stringStep quote) where
  behind := by
    intro c mid post h hor
    unfold stringStep
    by_cases hc : c = '\\'
    · have hmid : mid ≠ [] := hor.resolve_right fun hne => hne hc
      rw [startsNewline_append_fenced h, newlineLength_append_fenced h,
        escapeLength_append_fenced h hmid]
    · simp only [if_neg hc]
  escape := by
    intro post h
    have hnew : startsNewline post = false := startsNewline_append_fenced h []
    have hne : '\\' ≠ quote := by rcases hquote with rfl | rfl <;> decide
    have hline : isNewline '\\' = false := by decide
    simp [stringStep, hne, hline, hnew, escapeLength_fenced h]
  fence := by
    intro c d rest rest' hc _ hnone
    have hne : c ≠ quote := ne_of_isFence hc (by rcases hquote with rfl | rfl <;> decide)
    have hline := (isFence_classes hc).2.1
    simp only [stringStep, hne, hline, decide_false, Bool.or_false, Bool.false_eq_true,
      if_false] at hnone
    split at hnone <;> cases hnone

/-- A span that ends before a fence, or before the end of the text, does not see what is there. -/
theorem spanLength_fenced {step : Char → Text → Option Nat} (hstep : LocalStep step)
    (hpost : Fenced post) (hpost' : Fenced post') (skip : Nat) (mid : Text)
    (hle : spanLength step skip (mid ++ post) ≤ mid.length)
    (hlt : spanLength step skip (mid ++ post) < (mid ++ post).length) :
    spanLength step skip (mid ++ post') = spanLength step skip (mid ++ post) := by
  induction mid generalizing skip with
  | nil =>
      cases post with
      | nil => simp at hlt
      | cons c rest =>
          cases skip with
          | succ skip => simp [spanLength] at hle
          | zero =>
              cases hc : step c rest with
              | some more => simp [spanLength, hc] at hle
              | none =>
                  cases post' with
                  | nil => simp [spanLength, hc]
                  | cons d rest' =>
                      have hd : step d rest' = none := hstep.fence hpost hpost' hc
                      simp [spanLength, hc, hd]
  | cons c mid ih =>
      simp only [List.cons_append, List.length_cons] at hle hlt
      cases skip with
      | succ skip =>
          simp only [spanLength] at hle hlt
          simp only [List.cons_append, spanLength, ih skip (by omega) (by omega)]
      | zero =>
          by_cases hc : mid = [] ∧ c = '\\'
          · -- the escape would take the first character behind `mid`
            exfalso
            obtain ⟨rfl, rfl⟩ := hc
            rw [List.nil_append, spanLength, hstep.escape hpost] at hle hlt
            cases post with
            | nil => simp at hlt
            | cons d rest =>
                have hone : min (d :: rest).length 1 = 1 := by simp
                rw [hone] at hle
                simp only [spanLength, List.length_nil] at hle
                omega
          · have hor : mid ≠ [] ∨ c ≠ '\\' := by
              by_cases hmid : mid = []
              · exact Or.inr fun hback => hc ⟨hmid, hback⟩
              · exact Or.inl hmid
            simp only [List.cons_append, spanLength, hstep.behind hpost hor] at hle hlt ⊢
            rw [hstep.behind hpost' hor]
            cases hmore : step c mid with
            | none => rfl
            | some more =>
                rw [hmore] at hle hlt
                simp only at hle hlt ⊢
                rw [ih more (by omega) (by omega)]

theorem commentLength_cons (c : Char) (rest : Text) :
    commentLength (c :: rest) =
      if c = '*' ∧ rest.head? = some '/' then 2 else 1 + commentLength rest := by
  simp only [commentLength, Bool.and_eq_true, decide_eq_true_eq]

theorem commentLength_pos (c : Char) (rest : Text) : 0 < commentLength (c :: rest) := by
  rw [commentLength_cons]
  split <;> omega

theorem commentLength_fenced (post post' mid : Text)
    (hle : commentLength (mid ++ post) ≤ mid.length)
    (hlt : commentLength (mid ++ post) < (mid ++ post).length) :
    commentLength (mid ++ post') = commentLength (mid ++ post) := by
  induction mid with
  | nil =>
      cases post with
      | nil => simp at hlt
      | cons c rest =>
          have hpos := commentLength_pos c rest
          simp only [List.nil_append, List.length_nil] at hle
          omega
  | cons c mid ih =>
      simp only [List.cons_append, List.length_cons] at hle hlt ⊢
      rw [commentLength_cons] at hle hlt
      rw [commentLength_cons, commentLength_cons]
      by_cases hmid : mid = []
      · exfalso
        subst hmid
        cases post with
        | nil => simp [commentLength] at hlt
        | cons d rest =>
            have hpos := commentLength_pos d rest
            simp only [List.nil_append, List.length_nil] at hle
            split_ifs at hle <;> omega
      · have hhead : (mid ++ post').head? = (mid ++ post).head? := by
          rw [List.head?_append_of_ne_nil _ hmid, List.head?_append_of_ne_nil _ hmid]
        rw [hhead]
        by_cases hend : c = '*' ∧ (mid ++ post).head? = some '/'
        · rw [if_pos hend, if_pos hend]
        · rw [if_neg hend] at hle hlt
          rw [if_neg hend, if_neg hend, ih (by omega) (by omega)]

theorem urlLength_pos (part : UrlPart) (skip : Nat) (c : Char) (rest : Text) :
    0 < urlLength part skip (c :: rest) := by
  cases skip with
  | zero =>
      rw [urlLength]
      split
      · exact Nat.one_pos
      · exact Nat.lt_of_lt_of_le Nat.one_pos (Nat.le_add_right ..)
  | succ skip =>
      rw [urlLength]
      omega

theorem urlStep_append_fenced (h : Fenced post) (part : UrlPart) (c : Char) {mid : Text}
    (hmid : mid ≠ []) : urlStep part c (mid ++ post) = urlStep part c mid := by
  have hhead : (mid ++ post).head? = mid.head? := List.head?_append_of_ne_nil _ hmid
  simp only [urlStep, urlBodyStep, startsNewline_append_fenced h, escapeLength_append_fenced h hmid,
    hhead]

theorem urlLength_fenced (hpost : Fenced post) (hpost' : Fenced post') (part : UrlPart) (skip : Nat)
    (mid : Text) (hle : urlLength part skip (mid ++ post) ≤ mid.length)
    (hlt : urlLength part skip (mid ++ post) < (mid ++ post).length) :
    urlLength part skip (mid ++ post') = urlLength part skip (mid ++ post) := by
  induction mid generalizing part skip with
  | nil =>
      cases post with
      | nil => simp at hlt
      | cons c rest =>
          have hpos := urlLength_pos part skip c rest
          simp only [List.nil_append, List.length_nil] at hle
          omega
  | cons c mid ih =>
      simp only [List.cons_append, List.length_cons] at hle hlt ⊢
      cases skip with
      | succ skip =>
          simp only [urlLength] at hle hlt ⊢
          rw [ih part skip (by omega) (by omega)]
      | zero =>
          simp only [urlLength] at hle hlt ⊢
          by_cases hclose : c = ')'
          · rw [if_pos hclose, if_pos hclose]
          · rw [if_neg hclose] at hle hlt
            rw [if_neg hclose, if_neg hclose]
            by_cases hmid : mid = []
            · exfalso
              subst hmid
              cases post with
              | nil => simp [urlLength] at hlt
              | cons d rest =>
                  have hpos := urlLength_pos (urlStep part c (d :: rest)).1
                    (urlStep part c (d :: rest)).2 d rest
                  simp only [List.nil_append, List.length_nil] at hle
                  omega
            · rw [urlStep_append_fenced hpost part c hmid] at hle hlt ⊢
              rw [urlStep_append_fenced hpost' part c hmid, ih _ _ (by omega) (by omega)]

theorem startsName_append_fenced (h : Fenced post) (mid : Text) :
    startsName (mid ++ post) = startsName mid := by
  match mid with
  | [] =>
      cases post with
      | nil => rfl
      | cons c rest =>
          have hstart := (isFence_classes h).2.2.1
          have hhyphen : c ≠ '-' := ne_of_isFence h (by decide)
          have hback : c ≠ '\\' := ne_of_isFence h (by decide)
          simp [startsName, hhyphen, hback, hstart]
  | [c] =>
      have hnew := startsNewline_append_fenced h []
      simp only [List.nil_append] at hnew
      simp only [List.cons_append, List.nil_append, startsName, hnew]
      by_cases hc : c = '-'
      · cases post with
        | nil => rfl
        | cons d rest =>
            have hstart := (isFence_classes h).2.2.1
            have hhyphen : d ≠ '-' := ne_of_isFence h (by decide)
            have hback : d ≠ '\\' := ne_of_isFence h (by decide)
            simp [hc, hhyphen, hback, hstart]
      · simp [hc]
  | c :: d :: mid => rfl

theorem startsQuote_append_fenced (h : Fenced post) (mid : Text) :
    startsQuote (mid ++ post) = startsQuote mid := by
  induction mid with
  | nil =>
      cases post with
      | nil => rfl
      | cons c rest =>
          have hblank := (isFence_classes h).1
          have hdouble : c ≠ '\x22' := ne_of_isFence h (by decide)
          have hsingle : c ≠ '\x27' := ne_of_isFence h (by decide)
          simp [startsQuote, hblank, hdouble, hsingle]
  | cons c mid ih =>
      by_cases hc : isBlank c = true
      · simpa [startsQuote, hc] using ih
      · simp [startsQuote, hc]

/-- The character on which a span ends. -/
theorem step_eq_none_of_drop_spanLength {step : Char → Text → Option Nat} {skip : Nat} {text : Text}
    {c : Char} {rest : Text} (h : text.drop (spanLength step skip text) = c :: rest) :
    step c rest = none := by
  induction text generalizing skip with
  | nil => simp at h
  | cons d text ih =>
      cases skip with
      | succ skip =>
          rw [spanLength, Nat.add_comm, List.drop_succ_cons] at h
          exact ih h
      | zero =>
          cases hd : step d text with
          | none =>
              simp only [spanLength, hd, List.drop_zero, List.cons.injEq] at h
              obtain ⟨rfl, rfl⟩ := h
              exact hd
          | some more =>
              simp only [spanLength, hd] at h
              rw [Nat.add_comm, List.drop_succ_cons] at h
              exact ih h

theorem nameLength_fenced (hpost : Fenced post) (hpost' : Fenced post') (mid : Text)
    (hle : nameLength (mid ++ post) ≤ mid.length)
    (hlt : nameLength (mid ++ post) < (mid ++ post).length) :
    nameLength (mid ++ post') = nameLength (mid ++ post) :=
  spanLength_fenced localStep_nameStep hpost hpost' 0 mid hle hlt

theorem scanString_fenced {quote : Char} (hquote : quote = '\x22' ∨ quote = '\x27')
    (hpost : Fenced post) (hpost' : Fenced post') (mid : Text)
    (hle : (scanString quote (mid ++ post)).2 ≤ mid.length)
    (hlt : (scanString quote (mid ++ post)).2 < (mid ++ post).length) :
    scanString quote (mid ++ post') = scanString quote (mid ++ post) := by
  have hstep := localStep_stringStep hquote
  have hinside : spanLength (stringStep quote) 0 (mid ++ post) ≤ (scanString quote (mid ++ post)).2 := by
    simp only [scanString]
    split
    · exact Nat.le_refl _
    · split <;> omega
  have heq := spanLength_fenced hstep hpost hpost' 0 mid (by omega) (by omega)
  have hdrop : ∀ rest : Text, (mid ++ rest).drop (spanLength (stringStep quote) 0 (mid ++ post)) =
      mid.drop (spanLength (stringStep quote) 0 (mid ++ post)) ++ rest :=
    fun rest => List.drop_append_of_le_length (by omega)
  have hstop : ∀ {c : Char} {rest : Text},
      (mid ++ post).drop (spanLength (stringStep quote) 0 (mid ++ post)) = c :: rest →
      stringStep quote c rest = none := step_eq_none_of_drop_spanLength
  rw [hdrop] at hstop
  simp only [scanString, heq, hdrop] at hle hlt ⊢
  cases hmid : mid.drop (spanLength (stringStep quote) 0 (mid ++ post)) with
  | cons c rest => rfl
  | nil =>
      rw [hmid] at hstop hlt
      cases post with
      | nil =>
          have hlen := List.drop_eq_nil_iff.mp hmid
          simp only [List.append_nil] at hlt hlen
          omega
      | cons c rest =>
          -- a string goes on over a fence, so it cannot have stopped here
          have hnone := hstop rfl
          have hne : c ≠ quote := ne_of_isFence hpost (by rcases hquote with rfl | rfl <;> decide)
          have hline := (isFence_classes hpost).2.1
          have hback : c ≠ '\\' := ne_of_isFence hpost (by decide)
          simp [stringStep, hne, hline, hback] at hnone

theorem scanNamed_fenced (hpost : Fenced post) (hpost' : Fenced post') (c : Char) (mid : Text)
    (hle : (scanNamed c (mid ++ post)).2 ≤ mid.length)
    (hlt : (scanNamed c (mid ++ post)).2 < (mid ++ post).length) :
    scanNamed c (mid ++ post') = scanNamed c (mid ++ post) := by
  have hmore : nameLength (c :: (mid ++ post)) - 1 ≤ (scanNamed c (mid ++ post)).2 := by
    simp only [scanNamed]
    split
    · split <;> omega
    · exact Nat.le_refl _
  have heq : nameLength (c :: (mid ++ post')) = nameLength (c :: (mid ++ post)) := by
    refine nameLength_fenced hpost hpost' (c :: mid) ?_ ?_
    · simp only [List.cons_append, List.length_cons]
      omega
    · simp only [List.cons_append, List.length_cons]
      omega
  have hdrop : ∀ rest : Text, (mid ++ rest).drop (nameLength (c :: (mid ++ post)) - 1) =
      mid.drop (nameLength (c :: (mid ++ post)) - 1) ++ rest :=
    fun rest => List.drop_append_of_le_length (by omega)
  have htake : ∀ rest : Text, (mid ++ rest).take (nameLength (c :: (mid ++ post)) - 1) =
      mid.take (nameLength (c :: (mid ++ post)) - 1) :=
    fun rest => List.take_append_of_le_length (by omega)
  simp only [scanNamed, heq, hdrop, htake] at hle hlt ⊢
  cases hmid : mid.drop (nameLength (c :: (mid ++ post)) - 1) with
  | nil =>
      have hparen : ∀ {rest : Text}, Fenced rest → ∀ inside, rest ≠ '(' :: inside := by
        intro rest hrest inside heq
        exact hrest.head_ne (d := '(') (by decide) (by rw [heq]; rfl)
      simp only [List.nil_append]
      split
      · exact (hparen hpost' _ rfl).elim
      · split
        · exact (hparen hpost _ rfl).elim
        · rfl
  | cons d inside =>
      simp only [List.cons_append]
      by_cases hd : d = '('
      · subst hd
        simp only [hmid, List.cons_append, startsQuote_append_fenced hpost,
          startsQuote_append_fenced hpost'] at hle hlt ⊢
        split_ifs at hle hlt ⊢ with hurl
        · have hlen := congrArg List.length hmid
          simp only [List.length_drop, List.length_cons] at hlen
          simp only [List.length_append] at hlt
          rw [urlLength_fenced hpost hpost' .padding 0 inside (by omega)
            (by rw [List.length_append]; omega)]
        · rfl
      · split
        · rename_i heq
          exact (hd (List.cons.inj heq).1).elim
        · split
          · rename_i heq
            exact (hd (List.cons.inj heq).1).elim
          · rfl

/-- How a token that starts with a character is read from the text behind it: a function of that text,
and what is known about the text up to the first fence. -/
inductive Reader (c : Char) (mid : Text) : (Text → Kind × Nat) → Prop where
  | blank (hc : isBlank c = true) :
      Reader c mid fun rest => (.whitespace, (rest.takeWhile isBlank).length)
  | quote (hc : c = '\x22' ∨ c = '\x27') : Reader c mid (scanString c)
  | comment (hc : c = '/') (hstar : mid.head? = some '*') :
      Reader c mid fun rest => (.comment, 1 + commentLength (rest.drop 1))
  | commentClose (hahead : ['-', '>'].isPrefixOf mid = true) : Reader c mid fun _ => (.commentClose, 2)
  | commentOpen (hahead : ['!', '-', '-'].isPrefixOf mid = true) :
      Reader c mid fun _ => (.commentOpen, 3)
  | atKeyword (hc : c = '@') : Reader c mid fun rest => (.atKeyword, nameLength rest)
  | hash (hc : c = '#') : Reader c mid fun rest => (.other, nameLength rest)
  | named (hname : startsName (c :: mid) = true) : Reader c mid (scanNamed c)
  | digit (hc : c.isDigit = true) : Reader c mid fun rest => (.other, nameLength rest)
  | single : Reader c mid fun _ => (kindOfChar c, 0)

/-- Text put behind is of no account for which reader a character has. -/
structure Agrees (c : Char) (mid post : Text) : Prop where
  star : c = '/' → ((mid ++ post).head? = some '*' ↔ mid.head? = some '*')
  close : c = '-' → ['-', '>'].isPrefixOf (mid ++ post) = ['-', '>'].isPrefixOf mid
  mark : c = '<' → ['!', '-', '-'].isPrefixOf (mid ++ post) = ['!', '-', '-'].isPrefixOf mid
  keyword : c = '@' ∨ c = '#' → startsName (mid ++ post) = startsName mid
  name : startsName (c :: (mid ++ post)) = startsName (c :: mid)

/-- Where the text behind is of no account for it, a token is read with one reader. -/
theorem exists_reader_of_agrees (c : Char) (mid : Text) :
    ∃ read, Reader c mid read ∧ ∀ post, Agrees c mid post → scan c (mid ++ post) = read (mid ++ post) := by
  have hscan : ∀ post, Agrees c mid post → scan c (mid ++ post) =
      if isBlank c then (.whitespace, ((mid ++ post).takeWhile isBlank).length)
      else if c = '\x22' || c = '\x27' then scanString c (mid ++ post)
      else if c = '/' && mid.head? = some '*' then (.comment, 1 + commentLength ((mid ++ post).drop 1))
      else if c = '-' && ['-', '>'].isPrefixOf mid then (.commentClose, 2)
      else if c = '<' && ['!', '-', '-'].isPrefixOf mid then (.commentOpen, 3)
      else if c = '@' && startsName mid then (.atKeyword, nameLength (mid ++ post))
      else if c = '#' && startsName mid then (.other, nameLength (mid ++ post))
      else if startsName (c :: mid) then scanNamed c (mid ++ post)
      else if c.isDigit then (.other, nameLength (mid ++ post))
      else (kindOfChar c, 0) := by
    intro post h
    have hguard : ∀ {d : Char} {a b : Bool}, (c = d → a = b) →
        (decide (c = d) && a) = (decide (c = d) && b) := by
      intro d a b hab
      by_cases hc : c = d
      · rw [hab hc]
      · simp [hc]
    rw [scan, hguard fun hc => decide_eq_decide.mpr (h.star hc), hguard h.close, hguard h.mark,
      hguard fun hc => h.keyword (Or.inl hc), hguard fun hc => h.keyword (Or.inr hc), h.name]
  by_cases h : isBlank c = true
  · exact ⟨_, .blank h, fun post hpost => by rw [hscan post hpost, if_pos h]⟩
  simp only [if_neg h] at hscan
  by_cases h : (c = '\x22' || c = '\x27') = true
  · exact ⟨_, .quote (by simpa using h), fun post hpost => by rw [hscan post hpost, if_pos h]⟩
  simp only [if_neg h] at hscan
  by_cases h : (c = '/' && mid.head? = some '*') = true
  · simp only [Bool.and_eq_true, decide_eq_true_eq] at h
    exact ⟨_, .comment h.1 h.2, fun post hpost => by rw [hscan post hpost, if_pos (by simp [h])]⟩
  simp only [if_neg h] at hscan
  by_cases h : (c = '-' && ['-', '>'].isPrefixOf mid) = true
  · exact ⟨_, .commentClose (Bool.and_eq_true_iff.mp h).2,
      fun post hpost => by rw [hscan post hpost, if_pos h]⟩
  simp only [if_neg h] at hscan
  by_cases h : (c = '<' && ['!', '-', '-'].isPrefixOf mid) = true
  · exact ⟨_, .commentOpen (Bool.and_eq_true_iff.mp h).2,
      fun post hpost => by rw [hscan post hpost, if_pos h]⟩
  simp only [if_neg h] at hscan
  by_cases h : (c = '@' && startsName mid) = true
  · exact ⟨_, .atKeyword (of_decide_eq_true (Bool.and_eq_true_iff.mp h).1),
      fun post hpost => by rw [hscan post hpost, if_pos h]⟩
  simp only [if_neg h] at hscan
  by_cases h : (c = '#' && startsName mid) = true
  · exact ⟨_, .hash (of_decide_eq_true (Bool.and_eq_true_iff.mp h).1),
      fun post hpost => by rw [hscan post hpost, if_pos h]⟩
  simp only [if_neg h] at hscan
  by_cases h : startsName (c :: mid) = true
  · exact ⟨_, .named h, fun post hpost => by rw [hscan post hpost, if_pos h]⟩
  simp only [if_neg h] at hscan
  by_cases h : c.isDigit = true
  · exact ⟨_, .digit h, fun post hpost => by rw [hscan post hpost, if_pos h]⟩
  · exact ⟨_, .single, fun post hpost => by rw [hscan post hpost, if_neg h]⟩

/-- How a token is read does not depend on what stands behind a fence. -/
theorem exists_reader (c : Char) (mid : Text) :
    ∃ read, Reader c mid read ∧ ∀ post, Fenced post → scan c (mid ++ post) = read (mid ++ post) := by
  obtain ⟨read, hread, hscan⟩ := exists_reader_of_agrees c mid
  refine ⟨read, hread, fun post hpost => hscan post ?_⟩
  exact {
    star := fun _ => head?_append_fenced hpost (by decide) mid
    close := fun _ => isPrefixOf_append_fenced hpost _ mid (by decide)
    mark := fun _ => isPrefixOf_append_fenced hpost _ mid (by decide)
    keyword := fun _ => startsName_append_fenced hpost mid
    name := startsName_append_fenced hpost (c :: mid) }

/-- A token that ends before a fence, or before the end of the text, does not see what is there. -/
theorem scan_fenced (hpost : Fenced post) (hpost' : Fenced post') (c : Char) (mid : Text)
    (hle : (scan c (mid ++ post)).2 ≤ mid.length)
    (hlt : (scan c (mid ++ post)).2 < (mid ++ post).length) :
    scan c (mid ++ post') = scan c (mid ++ post) := by
  obtain ⟨read, hread, hscan⟩ := exists_reader c mid
  rw [hscan post hpost] at hle hlt ⊢
  rw [hscan post' hpost']
  cases hread with
  | blank =>
      have hblank : ∀ d, isFence d = true → isBlank d = false := fun d hd => (isFence_classes hd).1
      simp only [takeWhile_append_fenced _ hblank hpost, takeWhile_append_fenced _ hblank hpost']
  | quote hquote => exact scanString_fenced hquote hpost hpost' mid hle hlt
  | comment _ hstar =>
      obtain ⟨d, mid, rfl⟩ := List.exists_cons_of_ne_nil (l := mid) (by rintro rfl; cases hstar)
      simp only [List.cons_append, List.drop_succ_cons, List.drop_zero, List.length_cons] at hle hlt ⊢
      rw [commentLength_fenced post post' mid (by omega) (by omega)]
  | named => exact scanNamed_fenced hpost hpost' c mid hle hlt
  | atKeyword | hash | digit => simp only [nameLength_fenced hpost hpost' mid hle hlt]
  | commentClose | commentOpen | single => rfl

end Token
end FluidSizing

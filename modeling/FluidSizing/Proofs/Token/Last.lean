import FluidSizing.Proofs.Token.Standing

/-! The last token of a text, with closing parentheses behind it. It stays as it is, or it takes some of
them: a string or a comment that is still open, a URL, or a name with an escape at its end
(`StandsBefore.exists_extended`). Nothing of the last two kinds is ever a number or a length. -/

namespace FluidSizing

namespace Text

/-- A text with an opening bracket or a backslash. -/
def Garbled (text : Text) : Prop := ∃ c ∈ text, c = '(' ∨ c = '[' ∨ c = '\x7b' ∨ c = '\\'

theorem Garbled.append {text : Text} (h : text.Garbled) (more : Text) : (text ++ more).Garbled := by
  obtain ⟨c, hc, hcases⟩ := h
  exact ⟨c, List.mem_append_left _ hc, hcases⟩

theorem Garbled.prepend {text : Text} (h : text.Garbled) (front : Text) : (front ++ text).Garbled := by
  obtain ⟨c, hc, hcases⟩ := h
  exact ⟨c, List.mem_append_right _ hc, hcases⟩

end Text

namespace Token

theorem fenced_replicate (count : Nat) : Fenced (List.replicate count ')') := by
  cases count with
  | zero => exact fenced_nil
  | succ count => exact fenced_close .round _

theorem newlineLength_le (text : Text) : newlineLength text ≤ text.length := by
  unfold newlineLength
  split
  · simp
  · split <;> simp
  · simp

theorem escapeLength_le (text : Text) : escapeLength text ≤ text.length := by
  have hspace : ∀ rest : Text, spaceLength rest ≤ rest.length := by
    intro rest
    unfold spaceLength
    split
    · simp
    · split
      · simp
      · exact newlineLength_le _
  have hdigits := hexDigits_length_le text
  have hrest := hspace (text.drop (hexDigits text).length)
  rw [List.length_drop] at hrest
  unfold escapeLength
  split <;> omega

/-- A span up to the end of a text goes on behind it with at most the character that a backslash at the
end escapes. -/
theorem spanLength_append {step : Char → Text → Option Nat} (hstep : LocalStep step)
    (hbound : ∀ c rest more, step c rest = some more → more ≤ rest.length) {post : Text}
    (hpost : Fenced post) {skip : Nat} {mid : Text} (hskip : skip ≤ mid.length)
    (hfull : spanLength step skip mid = mid.length) :
    ∃ left, spanLength step skip (mid ++ post) = mid.length + spanLength step left post ∧
      (left = 0 ∨ left = 1 ∧ mid.getLast? = some '\\') := by
  induction mid generalizing skip with
  | nil =>
      obtain rfl := Nat.le_zero.mp hskip
      exact ⟨0, by simp, Or.inl rfl⟩
  | cons c mid ih =>
      have hcons : ∀ {left : Nat}, left = 0 ∨ left = 1 ∧ mid.getLast? = some '\\' →
          left = 0 ∨ left = 1 ∧ (c :: mid).getLast? = some '\\' := by
        rintro left (hleft | ⟨hleft, hlast⟩)
        · exact Or.inl hleft
        · have hne : mid ≠ [] := by
            rintro rfl
            cases hlast
          exact Or.inr ⟨hleft, by rwa [List.getLast?_cons_of_ne_nil hne]⟩
      cases skip with
      | succ skip =>
          rw [List.length_cons] at hskip hfull
          rw [spanLength] at hfull
          obtain ⟨left, hspan, hleft⟩ := ih (Nat.le_of_succ_le_succ hskip) (by omega)
          refine ⟨left, ?_, hcons hleft⟩
          rw [List.cons_append, spanLength, hspan, List.length_cons]
          omega
      | zero =>
          cases hmore : step c mid with
          | none => simp [spanLength, hmore] at hfull
          | some more =>
              by_cases hc : mid = [] ∧ c = '\\'
              · obtain ⟨rfl, rfl⟩ := hc
                refine ⟨min post.length 1, by simp [spanLength, hstep.escape hpost], ?_⟩
                rcases Nat.le_one_iff_eq_zero_or_eq_one.mp (Nat.min_le_right post.length 1) with h | h
                · exact Or.inl h
                · exact Or.inr ⟨h, rfl⟩
              · have hor : mid ≠ [] ∨ c ≠ '\\' := by
                  by_cases hmid : mid = []
                  · exact Or.inr fun hback => hc ⟨hmid, hback⟩
                  · exact Or.inl hmid
                simp only [spanLength, hmore, List.length_cons] at hfull
                obtain ⟨left, hspan, hleft⟩ := ih (hbound c mid more hmore) (by omega)
                refine ⟨left, ?_, hcons hleft⟩
                rw [List.cons_append, spanLength, hstep.behind hpost hor, hmore]
                simp only [hspan, List.length_cons]
                omega

theorem nameStep_le {c : Char} {rest : Text} {more : Nat} (h : nameStep c rest = some more) :
    more ≤ rest.length := by
  unfold nameStep at h
  split at h
  · split at h
    · cases h
    · rw [← Option.some.inj h]
      exact escapeLength_le rest
  · split at h
    · rw [← Option.some.inj h]
      exact Nat.zero_le _
    · cases h

variable {mid : Text}

/-- A name does not go on behind a fence if no backslash stands before that. -/
theorem nameLength_append_fenced {post : Text} (hpost : Fenced post)
    (hback : mid.getLast? ≠ some '\\') : nameLength (mid ++ post) = nameLength mid := by
  have hle : nameLength mid ≤ mid.length := spanLength_le nameStep 0 mid
  rcases Nat.eq_or_lt_of_le hle with hfull | hlt
  · obtain ⟨left, hspan, hleft⟩ := spanLength_append localStep_nameStep (fun _ _ _ => nameStep_le) hpost
      (Nat.zero_le _) hfull
    have hzero : spanLength nameStep 0 post = 0 := by
      cases post with
      | nil => rfl
      | cons c rest =>
          have hname := (isFence_classes hpost).2.2.2.1
          have hne : c ≠ '\\' := ne_of_isFence hpost (by decide)
          simp [spanLength, nameStep, hname, hne]
    obtain rfl : left = 0 := hleft.resolve_right fun h => hback h.2
    rw [hfull, nameLength, hspan, hzero, Nat.add_zero]
  · have hfenced := nameLength_fenced fenced_nil hpost mid
    rw [List.append_nil] at hfenced
    exact hfenced hle hlt

variable (count : Nat)

/-- A name up to the end of a text takes a closing parenthesis only into an escape. -/
theorem nameLength_closers (hfull : nameLength mid = mid.length) :
    ∃ taken ≤ count, nameLength (mid ++ List.replicate count ')') = mid.length + taken ∧
      (taken = 0 ∨ '\\' ∈ mid) := by
  have hzero : ∀ count, spanLength nameStep 0 (List.replicate count ')') = 0 := by
    intro count
    cases count <;> rfl
  obtain ⟨left, hspan, hleft⟩ := spanLength_append localStep_nameStep (fun _ _ _ => nameStep_le)
    (fenced_replicate count) (Nat.zero_le _) hfull
  rcases hleft with rfl | ⟨rfl, hlast⟩
  · refine ⟨0, Nat.zero_le _, ?_, Or.inl rfl⟩
    rw [nameLength, hspan, hzero]
  · refine ⟨min count 1, Nat.min_le_left .., ?_, Or.inr (List.mem_of_getLast? hlast)⟩
    rw [nameLength, hspan]
    cases count with
    | zero => rfl
    | succ count =>
        rw [List.replicate_succ, spanLength, hzero]
        omega

/-- A string that is open at the end of a text goes on over closing parentheses. -/
theorem stringLength_closers {quote : Char} (hquote : quote = '\x22' ∨ quote = '\x27')
    (hfull : spanLength (stringStep quote) 0 mid = mid.length) :
    spanLength (stringStep quote) 0 (mid ++ List.replicate count ')') = mid.length + count := by
  have hbound : ∀ c rest more, stringStep quote c rest = some more → more ≤ rest.length := by
    intro c rest more hmore
    unfold stringStep at hmore
    split at hmore
    · cases hmore
    · split at hmore
      · rw [← Option.some.inj hmore]
        split
        · exact newlineLength_le rest
        · exact escapeLength_le rest
      · rw [← Option.some.inj hmore]
        exact Nat.zero_le _
  have hclose : ∀ rest, stringStep quote ')' rest = some 0 := by
    intro rest
    rcases hquote with rfl | rfl <;> rfl
  have hall : ∀ count skip, spanLength (stringStep quote) skip (List.replicate count ')') = count := by
    intro count
    induction count with
    | zero => simp [spanLength]
    | succ count ih =>
        intro skip
        cases skip with
        | zero =>
            rw [List.replicate_succ, spanLength, hclose]
            exact (congrArg (1 + ·) (ih 0)).trans (Nat.add_comm 1 count)
        | succ skip => rw [List.replicate_succ, spanLength, ih, Nat.add_comm]
  obtain ⟨left, hspan, -⟩ := spanLength_append (localStep_stringStep hquote) hbound
    (fenced_replicate count) (Nat.zero_le _) hfull
  rw [hspan, hall]

/-- A comment up to the end of a text stays, or goes on over closing parentheses. -/
theorem commentLength_closers (hfull : commentLength mid = mid.length) :
    ∃ taken ≤ count, commentLength (mid ++ List.replicate count ')') = mid.length + taken := by
  induction mid with
  | nil =>
      have hle := commentLength_le (List.replicate count ')')
      rw [List.length_replicate] at hle
      exact ⟨_, hle, by simp⟩
  | cons c mid ih =>
      have hhead : (mid ++ List.replicate count ')').head? = some '/' ↔ mid.head? = some '/' := by
        cases mid with
        | nil => cases count <;> simp [List.replicate_succ]
        | cons d mid => simp
      rw [commentLength_cons, List.length_cons] at hfull
      simp only [List.cons_append, commentLength_cons, hhead, List.length_cons]
      split at hfull
      · rename_i hend
        rw [if_pos hend]
        exact ⟨0, Nat.zero_le _, by omega⟩
      · rename_i hend
        rw [if_neg hend]
        obtain ⟨taken, hle, hlength⟩ := ih (by omega)
        exact ⟨taken, hle, by omega⟩

/-- An unquoted URL up to the end of a text stays, or it takes closing parentheses. -/
theorem urlLength_closers (part : UrlPart) (hfull : urlLength part 0 mid = mid.length) :
    ∃ taken ≤ count, urlLength part 0 (mid ++ List.replicate count ')') = mid.length + taken := by
  have hge : ∀ skip, urlLength part skip mid = mid.length →
      mid.length ≤ urlLength part skip (mid ++ List.replicate count ')') := by
    clear hfull
    induction mid generalizing part with
    | nil => simp
    | cons c mid ih =>
        intro skip hfull
        rw [List.length_cons] at hfull ⊢
        rw [List.cons_append]
        cases skip with
        | succ skip =>
            rw [urlLength] at hfull ⊢
            have hle := ih part skip (by omega)
            omega
        | zero =>
            by_cases hmid : mid = []
            · rw [hmid]
              exact urlLength_pos part 0 c _
            · rw [urlLength] at hfull ⊢
              split
              · rename_i hclose
                rw [if_pos hclose] at hfull
                omega
              · rename_i hclose
                rw [if_neg hclose] at hfull
                dsimp only at hfull ⊢
                rw [urlStep_append_fenced (fenced_replicate count) part c hmid]
                have hle := ih (urlStep part c mid).1 (urlStep part c mid).2 (by omega)
                omega
  have hle := urlLength_le part 0 (mid ++ List.replicate count ')')
  rw [List.length_append, List.length_replicate] at hle
  have hge := hge 0 hfull
  exact ⟨urlLength part 0 (mid ++ List.replicate count ')') - mid.length, by omega, by omega⟩

/-- What a token takes of closing parentheses behind it: nothing, or it is a string, a comment, or
garbled text. -/
def Takes (kind : Kind) (text : Text) (taken : Nat) : Prop :=
  taken = 0 ∨ kind = .string ∨ kind = .comment ∨
    (kind = .ident ∨ kind = .atKeyword ∨ kind = .other) ∧ text.Garbled

theorem scanString_closers {quote : Char} (hquote : quote = '\x22' ∨ quote = '\x27')
    (hfull : (scanString quote mid).2 = mid.length) :
    ∃ taken ≤ count, scanString quote (mid ++ List.replicate count ')') =
        ((scanString quote mid).1, mid.length + taken) ∧
      Takes (scanString quote mid).1 (quote :: mid) taken := by
  by_cases hinside : spanLength (stringStep quote) 0 mid = mid.length
  · -- the string is open
    have hspan := stringLength_closers count hquote hinside
    have hopen : scanString quote mid = (.string, mid.length) := by
      simp [scanString, hinside]
    refine ⟨count, Nat.le_refl _, ?_, ?_⟩
    · rw [hopen]
      simp [scanString, hspan]
    · rw [hopen]
      exact Or.inr (Or.inl rfl)
  · have hle := spanLength_le (stringStep quote) 0 mid
    have hspan : spanLength (stringStep quote) 0 (mid ++ List.replicate count ')') =
        spanLength (stringStep quote) 0 mid := by
      have hfenced := spanLength_fenced (localStep_stringStep hquote) fenced_nil
        (fenced_replicate count) 0 mid
      rw [List.append_nil] at hfenced
      exact hfenced hle (by omega)
    refine ⟨0, Nat.zero_le _, ?_, Or.inl rfl⟩
    simp only [scanString, hspan] at hfull ⊢
    rw [List.drop_append_of_le_length hle]
    cases hdrop : mid.drop (spanLength (stringStep quote) 0 mid) with
    | nil =>
        have hlen := List.drop_eq_nil_iff.mp hdrop
        omega
    | cons d rest =>
        rw [hdrop] at hfull
        dsimp only [List.cons_append] at hfull ⊢
        split at hfull
        · rename_i hd
          rw [if_pos hd, ← hfull]
        · exact absurd hfull hinside

theorem scanNamed_of_open {c : Char} {rest inside : Text}
    (h : rest.drop (nameLength (c :: rest) - 1) = '(' :: inside) :
    scanNamed c rest =
      if isUrl (c :: rest.take (nameLength (c :: rest) - 1)) && !startsQuote inside then
        (.other, nameLength (c :: rest) - 1 + 1 + urlLength .padding 0 inside)
      else (.function, nameLength (c :: rest) - 1 + 1) := by
  simp only [scanNamed, h]

theorem scanNamed_of_head? {c : Char} {rest : Text}
    (h : (rest.drop (nameLength (c :: rest) - 1)).head? ≠ some '(') :
    scanNamed c rest = (.ident, nameLength (c :: rest) - 1) := by
  simp only [scanNamed]
  split
  · rename_i inside hdrop
    exact absurd (by rw [hdrop]; rfl) h
  · rfl

/-- A name that ends where it did is the same token as before if no parenthesis follows now, and if what
follows its own parenthesis is as much of a URL as before. -/
theorem scanNamed_append {c : Char} {rest post : Text}
    (hname : nameLength (c :: (rest ++ post)) = nameLength (c :: rest))
    (hparen : rest.drop (nameLength (c :: rest) - 1) = [] → post.head? ≠ some '(')
    (hurl : ∀ inside, rest.drop (nameLength (c :: rest) - 1) = '(' :: inside →
      isUrl (c :: rest.take (nameLength (c :: rest) - 1)) = true →
        startsQuote (inside ++ post) = startsQuote inside ∧
          (startsQuote inside = false →
            urlLength .padding 0 (inside ++ post) = urlLength .padding 0 inside)) :
    scanNamed c (rest ++ post) = scanNamed c rest := by
  have hle : nameLength (c :: rest) - 1 ≤ rest.length := by
    have hspan : nameLength (c :: rest) ≤ (c :: rest).length := spanLength_le nameStep 0 (c :: rest)
    rw [List.length_cons] at hspan
    omega
  have hdrop : (rest ++ post).drop (nameLength (c :: (rest ++ post)) - 1) =
      rest.drop (nameLength (c :: rest) - 1) ++ post := by
    rw [hname, List.drop_append_of_le_length hle]
  by_cases hopen : (rest.drop (nameLength (c :: rest) - 1)).head? = some '('
  · obtain ⟨inside, hinside⟩ := List.head?_eq_some_iff.mp hopen
    rw [hinside, List.cons_append] at hdrop
    rw [scanNamed_of_open hinside, scanNamed_of_open hdrop, hname, List.take_append_of_le_length hle]
    cases hisUrl : isUrl (c :: rest.take (nameLength (c :: rest) - 1)) with
    | false => rfl
    | true =>
        obtain ⟨hquote, hlength⟩ := hurl inside hinside hisUrl
        rw [hquote]
        cases hstarts : startsQuote inside with
        | true => rfl
        | false => rw [hlength hstarts]
  · have hafter : ((rest ++ post).drop (nameLength (c :: (rest ++ post)) - 1)).head? ≠ some '(' := by
      rw [hdrop]
      cases hrest : rest.drop (nameLength (c :: rest) - 1) with
      | nil => exact hparen hrest
      | cons d behind =>
          rw [hrest] at hopen
          exact hopen
    rw [scanNamed_of_head? hopen, scanNamed_of_head? hafter, hname]

theorem scanNamed_closers {c : Char} (hfull : (scanNamed c mid).2 = mid.length) :
    ∃ taken ≤ count, scanNamed c (mid ++ List.replicate count ')') =
        ((scanNamed c mid).1, mid.length + taken) ∧ Takes (scanNamed c mid).1 (c :: mid) taken := by
  by_cases hname : nameLength (c :: mid) = (c :: mid).length
  · -- the name is all of the text
    have hident : scanNamed c mid = (.ident, mid.length) := by
      simp [scanNamed, hname]
    obtain ⟨taken, hle, hlength, htaken⟩ := nameLength_closers count hname
    have hmore : nameLength (c :: (mid ++ List.replicate count ')')) - 1 = mid.length + taken := by
      rw [← List.cons_append, hlength, List.length_cons]
      omega
    have hdrop : (mid ++ List.replicate count ')').drop (mid.length + taken) =
        List.replicate (count - taken) ')' := by
      rw [← List.drop_drop, List.drop_left, List.drop_replicate]
    refine ⟨taken, hle, ?_, ?_⟩
    · rw [hident, scanNamed_of_head?, hmore]
      rw [hmore, hdrop]
      exact (fenced_replicate _).head_ne (by decide)
    · rw [hident]
      rcases htaken with rfl | hmem
      · exact Or.inl rfl
      · exact Or.inr (Or.inr (Or.inr ⟨Or.inl rfl, '\\', hmem, by simp⟩))
  · -- the name ends before, and a parenthesis behind it is there without the closing ones
    have hle : nameLength (c :: mid) ≤ (c :: mid).length := spanLength_le nameStep 0 (c :: mid)
    have hsame : nameLength (c :: (mid ++ List.replicate count ')')) = nameLength (c :: mid) := by
      have hfenced := nameLength_fenced fenced_nil (fenced_replicate count) (c :: mid)
      rw [List.append_nil] at hfenced
      exact hfenced hle (by omega)
    rw [List.length_cons] at hle
    have hdrop : (mid ++ List.replicate count ')').drop (nameLength (c :: mid) - 1) =
        mid.drop (nameLength (c :: mid) - 1) ++ List.replicate count ')' :=
      List.drop_append_of_le_length (by omega)
    have htake : (mid ++ List.replicate count ')').take (nameLength (c :: mid) - 1) =
        mid.take (nameLength (c :: mid) - 1) := List.take_append_of_le_length (by omega)
    by_cases hopen : (mid.drop (nameLength (c :: mid) - 1)).head? = some '('
    · obtain ⟨inside, hinside⟩ := List.head?_eq_some_iff.mp hopen
      have hlen := congrArg List.length hinside
      rw [List.length_drop, List.length_cons] at hlen
      rw [hinside, List.cons_append] at hdrop
      rw [scanNamed_of_open hinside] at hfull ⊢
      rw [scanNamed_of_open (by rw [hsame, hdrop]), hsame, htake,
        startsQuote_append_fenced (fenced_replicate count)]
      split at hfull
      · rename_i hurl
        dsimp only at hfull
        obtain ⟨taken, htaken, hlength⟩ := urlLength_closers count .padding
          (show urlLength .padding 0 inside = inside.length by omega)
        have hmem : '(' ∈ c :: mid := List.mem_cons_of_mem c
          (List.mem_of_mem_drop (hinside ▸ List.mem_cons_self))
        rw [if_pos hurl, if_pos hurl, hlength]
        refine ⟨taken, htaken, Prod.ext rfl ?_, ?_⟩
        · show nameLength (c :: mid) - 1 + 1 + (inside.length + taken) = mid.length + taken
          omega
        · exact Or.inr (Or.inr (Or.inr ⟨Or.inr (Or.inr rfl), '(', hmem, by simp⟩))
      · rename_i hurl
        rw [if_neg hurl, if_neg hurl]
        dsimp only at hfull
        exact ⟨0, Nat.zero_le _, by rw [hfull, Nat.add_zero], Or.inl rfl⟩
    · have hnone : ((mid ++ List.replicate count ')').drop (nameLength (c :: mid) - 1)).head? ≠
          some '(' := by
        rw [hdrop]
        exact fun h => hopen ((head?_append_fenced (fenced_replicate count) (by decide) _).mp h)
      rw [scanNamed_of_head? hopen] at hfull ⊢
      rw [scanNamed_of_head? (by rw [hsame]; exact hnone), hsame]
      dsimp only at hfull
      exact ⟨0, Nat.zero_le _, by rw [hfull, Nat.add_zero], Or.inl rfl⟩

/-- Any other token stays. -/
theorem StandsBefore.closers {t : Token} {rest : Text} (h : t.StandsBefore rest) (hne : rest ≠ []) :
    t.StandsBefore (rest ++ List.replicate count ')') := by
  rw [← List.append_nil rest] at h
  exact h.fenced fenced_nil (fenced_replicate count) (by simpa using hne)

/-- The last token of a text takes some of the closing parentheses behind it, and the others stand behind
it. -/
theorem StandsBefore.exists_extended {t : Token} (h : t.StandsBefore []) :
    ∃ taken ≤ count, StandsBefore ⟨t.kind, t.text ++ List.replicate taken ')'⟩
        (List.replicate (count - taken) ')') ∧ Takes t.kind t.text taken := by
  obtain ⟨kind, text⟩ := t
  obtain ⟨c, more, rfl, hscan⟩ := h
  rw [List.append_nil] at hscan
  have hclosers : ∃ taken ≤ count,
      scan c (more ++ List.replicate count ')') = (kind, more.length + taken) ∧
        Takes kind (c :: more) taken := by
    obtain ⟨read, hread, hsame⟩ := exists_reader c more
    have hfull := hsame [] fenced_nil
    rw [List.append_nil, hscan] at hfull
    rw [hsame _ (fenced_replicate count)]
    have hname : ∀ kind' : Kind, (kind' = .ident ∨ kind' = .atKeyword ∨ kind' = .other) →
        (kind, more.length) = (kind', nameLength more) →
        ∃ taken ≤ count, (kind', nameLength (more ++ List.replicate count ')')) =
          (kind, more.length + taken) ∧ Takes kind (c :: more) taken := by
      intro kind' hkind hfull
      obtain ⟨rfl, hlen⟩ := Prod.mk.inj hfull
      obtain ⟨taken, hle, hlength, htaken⟩ := nameLength_closers count hlen.symm
      refine ⟨taken, hle, by rw [hlength], htaken.imp_right fun hmem => ?_⟩
      exact Or.inr (Or.inr ⟨hkind, '\\', List.mem_cons_of_mem c hmem, by simp⟩)
    cases hread with
    | blank =>
        obtain ⟨rfl, hlen⟩ := Prod.mk.inj hfull
        refine ⟨0, Nat.zero_le _, ?_, Or.inl rfl⟩
        dsimp only
        rw [takeWhile_append_fenced _ (fun d hd => (isFence_classes hd).1) (fenced_replicate count),
          ← hlen, Nat.add_zero]
    | quote hquote =>
        have hstring := scanString_closers count hquote
          (show (scanString c more).2 = more.length by rw [← hfull])
        rwa [← hfull] at hstring
    | comment _ hstar =>
        obtain ⟨rest, rfl⟩ := List.head?_eq_some_iff.mp hstar
        obtain ⟨rfl, hlen⟩ := Prod.mk.inj hfull
        rw [List.length_cons, List.drop_succ_cons, List.drop_zero] at hlen
        obtain ⟨taken, hle, hlength⟩ := commentLength_closers count
          (show commentLength rest = rest.length by omega)
        refine ⟨taken, hle, ?_, Or.inr (Or.inr (Or.inl rfl))⟩
        show (Kind.comment, 1 + commentLength (rest ++ List.replicate count ')')) = _
        rw [hlength, List.length_cons]
        exact Prod.ext rfl (by dsimp only; omega)
    | named =>
        have hnamed := scanNamed_closers count
          (show (scanNamed c more).2 = more.length by rw [← hfull])
        rwa [← hfull] at hnamed
    | atKeyword => exact hname _ (Or.inr (Or.inl rfl)) hfull
    | hash | digit => exact hname _ (Or.inr (Or.inr rfl)) hfull
    | commentClose | commentOpen | single => exact ⟨0, Nat.zero_le _, hfull.symm, Or.inl rfl⟩
  obtain ⟨taken, hle, hscan, htakes⟩ := hclosers
  refine ⟨taken, hle, ⟨c, more ++ List.replicate taken ')', rfl, ?_⟩, htakes⟩
  rw [List.append_assoc, List.replicate_append_replicate, Nat.add_sub_cancel' hle, hscan,
    List.length_append, List.length_replicate]

end Token
end FluidSizing

import FluidSizing.Proofs.Token.Closed

/-! The last token of a text that may have backslashes. A string, a comment and an unquoted URL have an end
of their own; whether it has been read is asked of the scanners, since an escaped quote or parenthesis is
no end. A token that has its end, and every token without one, takes nothing that is put behind a fence
unless the text ends with a backslash (`StandsBefore.of_ended`). -/

namespace FluidSizing
namespace Token

/-- Whether an unquoted URL has its closing parenthesis. -/
def urlCloses : UrlPart → Nat → Text → Bool
  | _, _, [] => false
  | part, skip + 1, _ :: rest => urlCloses part skip rest
  | part, 0, c :: rest =>
    if c = ')' then true
    else
      let (next, more) := urlStep part c rest
      urlCloses next more rest

/-- Whether a string has its other quote, a comment its closing mark and an unquoted URL its closing
parenthesis; nothing is asked of other tokens. -/
def hasEnd (t : Token) : Bool :=
  match t.kind, t.text with
  | .string, quote :: inside => spanLength (stringStep quote) 0 inside < inside.length
  | .comment, text => ['*', '/'].isSuffixOf (text.drop 2)
  | .other, text =>
    match text.drop (nameLength text) with
    | '(' :: inside => urlCloses .padding 0 inside
    | _ => true
  | _, _ => true

variable {post mid : Text}

theorem urlLength_of_closes (hpost : Fenced post) {part : UrlPart} {skip : Nat}
    (hcloses : urlCloses part skip mid = true) (hfull : urlLength part skip mid = mid.length) :
    urlLength part skip (mid ++ post) = mid.length := by
  induction mid generalizing part skip with
  | nil => cases skip <;> cases hcloses
  | cons c mid ih =>
      rw [List.length_cons] at hfull
      rw [List.cons_append, List.length_cons]
      cases skip with
      | succ skip =>
          rw [urlCloses] at hcloses
          rw [urlLength] at hfull ⊢
          rw [ih hcloses (by omega), Nat.add_comm]
      | zero =>
          rw [urlCloses] at hcloses
          rw [urlLength] at hfull ⊢
          by_cases hclose : c = ')'
          · rw [if_pos hclose] at hfull ⊢
            exact hfull
          · rw [if_neg hclose] at hcloses hfull ⊢
            dsimp only at hcloses hfull ⊢
            have hne : mid ≠ [] := by
              rintro rfl
              simp [urlCloses] at hcloses
            rw [urlStep_append_fenced hpost part c hne, ih hcloses (by omega), Nat.add_comm]

theorem nameLength_pos {c : Char} (hname : startsName (c :: mid) = true) :
    0 < nameLength (c :: mid) := by
  have hstep : nameStep c mid ≠ none := by
    simp only [startsName] at hname
    rw [nameStep]
    by_cases hback : c = '\\'
    · have hnewline : startsNewline mid = false := by simpa [hback] using hname
      simp [hback, hnewline]
    · have hchar : isNameChar c = true := by
        by_cases hhyphen : c = '-'
        · simp [isNameChar, hhyphen]
        · have hstart : isNameStart c = true := by simpa [hback, hhyphen] using hname
          simp [isNameChar, hstart]
      simp [hback, hchar]
  obtain ⟨more, hmore⟩ := Option.ne_none_iff_exists'.mp hstep
  rw [nameLength, spanLength, hmore]
  exact Nat.lt_of_lt_of_le Nat.one_pos (Nat.le_add_right ..)

theorem getLast?_ne_of_cons {c d : Char} (h : (c :: mid).getLast? ≠ some d) :
    mid.getLast? ≠ some d := fun hlast => h (List.mem_getLast?_cons hlast)

theorem scanNamed_of_hasEnd (hpost : Fenced post) {c : Char} (hname : startsName (c :: mid) = true)
    (hfull : (scanNamed c mid).2 = mid.length) (hback : (c :: mid).getLast? ≠ some '\\')
    (hend : hasEnd ⟨(scanNamed c mid).1, c :: mid⟩ = true) :
    scanNamed c (mid ++ post) = scanNamed c mid := by
  refine scanNamed_append (nameLength_append_fenced hpost hback) ?_ ?_
  · exact fun _ => hpost.head_ne (by decide)
  · intro inside hinside hurl
    refine ⟨startsQuote_append_fenced hpost inside, fun hquote => ?_⟩
    have hbehind : (c :: mid).drop (nameLength (c :: mid)) = '(' :: inside := by
      conv_lhs => rw [← Nat.succ_pred_eq_of_pos (nameLength_pos hname), List.drop_succ_cons]
      exact hinside
    have hlen := congrArg List.length hinside
    rw [List.length_drop, List.length_cons] at hlen
    rw [scanNamed_of_open hinside, hurl, hquote, Bool.not_false, Bool.true_and, if_pos rfl] at hfull hend
    simp only [hasEnd, hbehind] at hend
    have hall : urlLength .padding 0 inside = inside.length := by
      dsimp only at hfull
      omega
    rw [urlLength_of_closes hpost hend hall, hall]

/-- A token at the end of a text that is no backslash stays before a fence, if it has its end. -/
theorem StandsBefore.of_ended {t : Token} (h : t.StandsBefore []) (hback : t.text.getLast? ≠ some '\\')
    (hend : t.hasEnd = true) (hpost : Fenced post) : t.StandsBefore post := by
  obtain ⟨kind, text⟩ := t
  obtain ⟨c, more, rfl, hscan⟩ := h
  rw [List.append_nil] at hscan
  dsimp only at hback hend hscan
  refine ⟨c, more, rfl, ?_⟩
  have hmore := getLast?_ne_of_cons hback
  obtain ⟨read, hread, hsame⟩ := exists_reader c more
  have hfull := hsame [] fenced_nil
  rw [List.append_nil, hscan] at hfull
  rw [hsame post hpost]
  obtain ⟨hkind, hlength⟩ := Prod.mk.inj hfull
  cases hread with
  | blank =>
      dsimp only at hkind hlength ⊢
      rw [takeWhile_append_fenced _ (fun d hd => (isFence_classes hd).1) hpost, hkind, hlength]
  | quote =>
      rw [hkind, scanString_eq_string hlength.symm] at hend
      rw [scanString_append (by simpa [hasEnd] using hend), ← hfull]
  | comment _ hstar =>
      obtain ⟨inside, rfl⟩ := List.head?_eq_some_iff.mp hstar
      rw [hkind] at hend
      simp only [List.drop_succ_cons, List.drop_zero, List.length_cons] at hlength
      have hclosed : commentLength (inside ++ post) = inside.length :=
        commentLength_closed (by simpa [hasEnd] using hend) (by omega)
      simp only [List.cons_append, List.drop_succ_cons, List.drop_zero, hclosed, hkind,
        List.length_cons, Nat.add_comm]
  | named hname =>
      rw [hkind] at hend
      rw [scanNamed_of_hasEnd hpost hname hlength.symm hback hend, ← hfull]
  | atKeyword | hash | digit =>
      dsimp only at hkind hlength ⊢
      rw [nameLength_append_fenced hpost hmore, hkind, hlength]
  | commentClose | commentOpen | single => exact hfull.symm

end Token
end FluidSizing

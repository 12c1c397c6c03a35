import FluidSizing.Proofs.Component.Standing

/-! Plain text: text without quotes, brackets, backslashes and asterisks. Whatever else it holds, it falls
into tokens that neither open nor close a block, and none of them goes on behind a fence
(`exists_stands_of_plain`). -/

namespace FluidSizing
namespace Token

/-- The characters that start no string, comment, escape or block, and end no block. -/
def isPlain (c : Char) : Bool :=
  c ≠ '\x22' && c ≠ '\x27' && c ≠ '(' && c ≠ ')' && c ≠ '[' && c ≠ ']' && c ≠ '\x7b' && c ≠ '\x7d' &&
    c ≠ '\\' && c ≠ '*'

theorem ne_of_isPlain {c d : Char} (hc : isPlain c = true) (hd : isPlain d = false) : c ≠ d := by
  rintro rfl
  rw [hc] at hd
  cases hd

variable {post : Text}

theorem nameLength_plain (hpost : Fenced post) {mid : Text} (hmid : ∀ c ∈ mid, isPlain c = true) :
    nameLength (mid ++ post) ≤ mid.length := by
  unfold nameLength
  induction mid with
  | nil =>
      cases post with
      | nil => simp [spanLength]
      | cons c rest =>
          have hname := (isFence_classes hpost).2.2.2.1
          have hne : c ≠ '\\' := ne_of_isFence hpost (by decide)
          simp [spanLength, nameStep, hname, hne]
  | cons c mid ih =>
      obtain ⟨hc, hrest⟩ := List.forall_mem_cons.mp hmid
      have hne : c ≠ '\\' := ne_of_isPlain hc (by decide)
      have hle := ih hrest
      rw [List.cons_append, spanLength, nameStep, if_neg hne, List.length_cons]
      split <;> rename_i hstep
      · exact Nat.zero_le _
      · split at hstep
        · cases hstep
          omega
        · cases hstep

/-- Behind plain text and before a fence no parenthesis follows a name. -/
theorem scanNamed_plain (hpost : Fenced post) {c : Char} {mid : Text}
    (hmid : ∀ d ∈ c :: mid, isPlain d = true) :
    scanNamed c (mid ++ post) = (.ident, nameLength (c :: mid ++ post) - 1) ∧
      nameLength (c :: mid ++ post) - 1 ≤ mid.length := by
  have hle := nameLength_plain hpost hmid
  rw [List.length_cons] at hle
  refine ⟨?_, by omega⟩
  rw [scanNamed, ← List.cons_append]
  rw [List.drop_append_of_le_length (by omega)]
  split
  · rename_i inside hdrop
    exfalso
    cases hrest : mid.drop (nameLength (c :: mid ++ post) - 1) with
    | nil =>
        rw [hrest, List.nil_append] at hdrop
        rw [hdrop] at hpost
        have hopen : isFence '(' = true := hpost
        exact absurd hopen (by decide)
    | cons d rest =>
        rw [hrest] at hdrop
        obtain ⟨rfl, -⟩ := List.cons.inj hdrop
        have hmem : '(' ∈ mid := List.mem_of_mem_drop (hrest ▸ List.mem_cons_self)
        exact absurd (hmid '(' (List.mem_cons_of_mem c hmem)) (by decide)
  · rfl

theorem isFlat_kindOfChar {c : Char} (hc : isPlain c = true) (enclosing : Option Bracket) :
    (kindOfChar c).isFlat enclosing = true := by
  have hkind := charKind c
  generalize kindOfChar c = kind at hkind ⊢
  cases hkind with
  | openRound h => exact absurd h (ne_of_isPlain hc (by decide))
  | openSquare h => exact absurd h (ne_of_isPlain hc (by decide))
  | openCurly h => exact absurd h (ne_of_isPlain hc (by decide))
  | closeRound h => exact absurd h (ne_of_isPlain hc (by decide))
  | closeSquare h => exact absurd h (ne_of_isPlain hc (by decide))
  | closeCurly h => exact absurd h (ne_of_isPlain hc (by decide))
  | _ => rfl

/-- A token of plain text ends before a fence and is neither a bracket nor a function. -/
theorem scan_plain (hpost : Fenced post) {c : Char} {mid : Text}
    (hmid : ∀ d ∈ c :: mid, isPlain d = true) (enclosing : Option Bracket) :
    (scan c (mid ++ post)).2 ≤ mid.length ∧
      (scan c (mid ++ post)).1.isFlat enclosing = true := by
  obtain ⟨hc, hrest⟩ := List.forall_mem_cons.mp hmid
  have hname := nameLength_plain hpost hrest
  obtain ⟨hnamed, hlength⟩ := scanNamed_plain hpost hmid
  obtain ⟨read, hread, hscan⟩ := exists_reader c mid
  rw [hscan post hpost]
  cases hread with
  | blank =>
      dsimp only
      rw [takeWhile_append_fenced isBlank (fun d hd => (isFence_classes hd).1) hpost]
      exact ⟨(List.takeWhile_sublist _).length_le, rfl⟩
  | quote hquote => rcases hquote with rfl | rfl <;> exact absurd hc (by decide)
  | comment _ hstar => exact absurd (hrest '*' (List.mem_of_mem_head? hstar)) (by decide)
  | commentClose hahead => exact ⟨(List.isPrefixOf_iff_prefix.mp hahead).length_le, rfl⟩
  | commentOpen hahead => exact ⟨(List.isPrefixOf_iff_prefix.mp hahead).length_le, rfl⟩
  | named =>
      rw [hnamed]
      exact ⟨hlength, rfl⟩
  | single => exact ⟨Nat.zero_le _, isFlat_kindOfChar hc enclosing⟩
  | _ => exact ⟨hname, rfl⟩

end Token

open Component (Stands)

/-- Plain text before a fence is tokens that stand there. -/
theorem exists_stands_of_plain {post text : Text} (hpost : Token.Fenced post)
    (htext : ∀ c ∈ text, Token.isPlain c = true) (enclosing : Option Bracket) :
    ∃ tokens : List Token, Component.sources (tokens.map Component.token) = text ∧
      Stands enclosing post (tokens.map Component.token) := by
  induction hlen : text.length using Nat.strongRecOn generalizing text with
  | ind n ih =>
      cases text with
      | nil => exact ⟨[], rfl, .nil _ _⟩
      | cons c mid =>
          obtain ⟨hle, hflat⟩ := Token.scan_plain hpost htext enclosing
          have hmid := fun d hd => htext d (List.mem_cons_of_mem c hd)
          obtain ⟨tokens, hsources, hstands⟩ := ih (mid.drop (Token.scan c (mid ++ post)).2).length
            (by rw [← hlen, List.length_drop, List.length_cons]; omega)
            (fun d hd => hmid d (List.mem_of_mem_drop hd)) rfl
          refine ⟨⟨(Token.scan c (mid ++ post)).1, c :: mid.take (Token.scan c (mid ++ post)).2⟩ ::
            tokens, ?_, ?_⟩
          · rw [List.map_cons, Component.sources_cons, hsources, Component.source,
              List.cons_append, List.take_append_drop]
          · refine .token ⟨c, _, rfl, ?_⟩ hflat hstands
            rw [hsources, ← List.append_assoc, List.take_append_drop,
              List.length_take_of_le hle]

end FluidSizing

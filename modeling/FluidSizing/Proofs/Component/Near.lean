import FluidSizing.Proofs.Component.Standing

/-! Texts that differ only behind a fence. What stands before one of them stands before the other, since
no token looks behind the fence, so component values can be changed at one place and keep standing
everywhere before it. -/

namespace FluidSizing

namespace Token

/-- Texts that are the same, or are the same up to a fence. -/
inductive Near : Text → Text → Prop where
  | refl (text : Text) : Near text text
  | fenced (mid : Text) {post post' : Text} (hpost : Fenced post) (hpost' : Fenced post')
      (ne_nil : post ≠ []) : Near (mid ++ post) (mid ++ post')

variable {post post' : Text}

theorem Near.append_left (h : Near post post') (front : Text) :
    Near (front ++ post) (front ++ post') := by
  cases h with
  | refl => exact .refl _
  | fenced mid hpost hpost' ne_nil =>
      rw [← List.append_assoc, ← List.append_assoc]
      exact .fenced _ hpost hpost' ne_nil

theorem Near.eq_nil (h : Near [] post') : post' = [] := by
  generalize htext : ([] : Text) = text at h
  cases h with
  | refl => rfl
  | fenced mid _ _ ne_nil => exact absurd (List.append_eq_nil_iff.mp htext.symm).2 ne_nil

theorem Near.fenced_right (h : Near post post') (hpost : Fenced post) : Fenced post' := by
  cases h with
  | refl => exact hpost
  | fenced mid _ hpost' _ =>
      cases mid with
      | nil => exact hpost'
      | cons c mid => exact hpost

theorem StandsBefore.near {t : Token} (h : t.StandsBefore post) (hnear : Near post post') :
    t.StandsBefore post' := by
  cases hnear with
  | refl => exact h
  | fenced mid hpost hpost' ne_nil =>
      exact h.fenced hpost hpost' (List.append_ne_nil_of_right_ne_nil mid ne_nil)

end Token

open Token (Near)

namespace Component

theorem Stands.near {enclosing : Option Bracket} {post post' : Text} {cs : List Component}
    (h : Stands enclosing post cs) (hnear : Near post post') : Stands enclosing post' cs := by
  cases hnear with
  | refl => exact h
  | fenced mid hpost hpost' ne_nil =>
      exact h.fenced hpost hpost' (List.append_ne_nil_of_right_ne_nil mid ne_nil)

/-- The second component values can stand in the place of the first, whatever changes behind a fence,
and what is before them keeps standing. -/
def Fits (enclosing : Option Bracket) (post : Text) (cs cs' : List Component) : Prop :=
  ∀ post', Near post post' →
    Stands enclosing post' cs' ∧ Near (sources cs ++ post) (sources cs' ++ post')

theorem Stands.fits {enclosing : Option Bracket} {post : Text} {cs : List Component}
    (h : Stands enclosing post cs) : Fits enclosing post cs cs := fun _ hnear =>
  ⟨h.near hnear, hnear.append_left (sources cs)⟩

namespace Fits

variable {enclosing : Option Bracket} {post : Text} {t : Token} {opening : Opening}
  {body body' rest rest' : List Component}

theorem token (stands : t.StandsBefore (sources rest ++ post)) (flat : t.kind.isFlat enclosing = true)
    (behind : Fits enclosing post rest rest') :
    Fits enclosing post (.token t :: rest) (.token t :: rest') := by
  intro post' hnear
  obtain ⟨hstands, hnear⟩ := behind post' hnear
  refine ⟨.token (stands.near hnear) flat hstands, ?_⟩
  simpa [source] using hnear.append_left t.text

theorem closed
    (stands : opening.token.StandsBefore
      (sources body ++ opening.brackets.close :: (sources rest ++ post)))
    (inside : Fits (some opening.brackets) (opening.brackets.close :: (sources rest ++ post)) body body')
    (behind : Fits enclosing post rest rest') :
    Fits enclosing post (.block opening body true :: rest) (.block opening body' true :: rest') := by
  intro post' hnear
  obtain ⟨hstands, hnear⟩ := behind post' hnear
  obtain ⟨hinside, hnear⟩ := inside _ (hnear.append_left [opening.brackets.close])
  refine ⟨.closed (stands.near hnear) hinside hstands, ?_⟩
  simpa [source] using hnear.append_left opening.text

theorem unclosed (stands : opening.token.StandsBefore (sources body))
    (inside : Fits (some opening.brackets) [] body body') :
    Fits enclosing [] [.block opening body false] [.block opening body' false] := by
  intro post' hnear
  obtain rfl := hnear.eq_nil
  obtain ⟨hinside, hnear⟩ := inside [] (.refl [])
  rw [List.append_nil, List.append_nil] at hnear
  refine ⟨.unclosed (stands.near hnear) hinside, ?_⟩
  simpa [source] using hnear.append_left opening.text

end Fits

end Component
end FluidSizing

import FluidSizing.Component
import FluidSizing.Proofs.Token.Standing

/-! Component values where they stand. `Stands enclosing post cs` says that `cs`, read inside a block
in the brackets `enclosing` and followed by the text `post`, are what the text between yields: every
token stands before the rest, every block has the brackets that belong to it, and a block is left open
only where the text ends. Reading a text and standing before its end are the same
(`stands_ofText`, `ofText_sources`), so what is proved by induction on `Stands` holds for every text. -/

namespace FluidSizing

namespace Token

/-- Whether a token inside a block in these brackets neither opens nor closes a block. -/
def Kind.isFlat (enclosing : Option Bracket) : Kind → Bool
  | .function => false
  | .opening _ => false
  | .closing bracket => enclosing ≠ some bracket
  | _ => true

end Token

namespace Opening

def token : Opening → Token
  | bracket b => ⟨.opening b, [b.opener]⟩
  | call name => ⟨.function, name ++ [Bracket.round.opener]⟩

@[simp] theorem text_token (opening : Opening) : opening.token.text = opening.text := by
  cases opening <;> rfl

end Opening

namespace Component

/-- The component values, inside a block in these brackets and followed by a text, are what reading
gives. -/
inductive Stands : Option Bracket → Text → List Component → Prop where
  | nil (enclosing : Option Bracket) (post : Text) : Stands enclosing post []
  | token {enclosing : Option Bracket} {post : Text} {t : Token} {rest : List Component}
      (stands : t.StandsBefore (sources rest ++ post)) (flat : t.kind.isFlat enclosing = true)
      (behind : Stands enclosing post rest) : Stands enclosing post (token t :: rest)
  | closed {enclosing : Option Bracket} {post : Text} {opening : Opening}
      {body rest : List Component}
      (stands : opening.token.StandsBefore
        (sources body ++ opening.brackets.close :: (sources rest ++ post)))
      (inside : Stands (some opening.brackets)
        (opening.brackets.close :: (sources rest ++ post)) body)
      (behind : Stands enclosing post rest) :
      Stands enclosing post (block opening body true :: rest)
  | unclosed {enclosing : Option Bracket} {opening : Opening} {body : List Component}
      (stands : opening.token.StandsBefore (sources body))
      (inside : Stands (some opening.brackets) [] body) :
      Stands enclosing [] [block opening body false]

/-- The text where reading a block ends: its end, or the bracket that closes the block. -/
def EndsBlock (enclosing : Option Bracket) (post : Text) : Prop :=
  post = [] ∨ ∃ bracket rest, enclosing = some bracket ∧ post = bracket.close :: rest

theorem exists_opening {enclosing : Option Bracket} {t : Token} (hspelled : t.WellSpelled)
    (hflat : t.kind.isFlat enclosing = false) :
    (∃ opening : Opening, opening.token = t) ∨
      ∃ bracket, enclosing = some bracket ∧ t.text = [bracket.close] := by
  obtain ⟨kind, text⟩ := t
  cases kind with
  | function =>
      obtain ⟨name, htext⟩ := hspelled
      left
      refine ⟨.call name, ?_⟩
      simp only at htext
      rw [htext]
      rfl
  | opening bracket =>
      left
      refine ⟨.bracket bracket, ?_⟩
      have htext : text = [bracket.opener] := hspelled
      rw [htext]
      rfl
  | closing bracket =>
      right
      have htext : text = [bracket.close] := hspelled
      refine ⟨bracket, ?_, htext⟩
      simpa [Token.Kind.isFlat] using hflat
  | _ => cases hflat

/-- Every text starts with component values, up to its end or to the bracket that closes the block. -/
theorem exists_stands (enclosing : Option Bracket) (text : Text) :
    ∃ cs post, text = sources cs ++ post ∧ Stands enclosing post cs ∧ EndsBlock enclosing post := by
  induction hlen : text.length using Nat.strongRecOn generalizing enclosing text with
  | ind n ih =>
      cases text with
      | nil => exact ⟨[], [], rfl, .nil _ _, Or.inl rfl⟩
      | cons c text =>
          obtain ⟨t, rest, htext, hstands⟩ := Token.exists_standsBefore c text
          have hpos := List.length_pos_iff.mpr hstands.text_ne_nil
          have hsum : n = t.text.length + rest.length := by
            rw [← hlen, htext, List.length_append]
          by_cases hflat : t.kind.isFlat enclosing = true
          · obtain ⟨cs, post, rfl, hcs, hend⟩ := ih rest.length (by omega) enclosing rest rfl
            refine ⟨token t :: cs, post, ?_, .token hstands hflat hcs, hend⟩
            rw [htext, sources_cons, source, List.append_assoc]
          · rcases exists_opening hstands.wellSpelled (Bool.eq_false_iff.mpr hflat) with
              ⟨opening, rfl⟩ | ⟨bracket, henclosing, hclose⟩
            · rw [Opening.text_token] at htext hpos hsum
              obtain ⟨body, post, rfl, hbody, hend⟩ :=
                ih rest.length (by omega) (some opening.brackets) rest rfl
              rcases hend with rfl | ⟨bracket, behind, hbracket, rfl⟩
              · refine ⟨[block opening body false], [], ?_, .unclosed ?_ hbody, Or.inl rfl⟩
                · simp [htext, source]
                · simpa using hstands
              · obtain rfl := Option.some.inj hbracket
                rw [List.length_append, List.length_cons] at hsum
                obtain ⟨cs, post, rfl, hcs, hend⟩ :=
                  ih behind.length (by omega) enclosing behind rfl
                refine ⟨block opening body true :: cs, post, ?_, .closed hstands hbody hcs, hend⟩
                simp [htext, source]
            · refine ⟨[], c :: text, rfl, .nil _ _, Or.inr ⟨bracket, rest, henclosing, ?_⟩⟩
              rw [htext, hclose]
              rfl

namespace Builder

theorem push_of_isFlat {frames : List Frame} {items : List Component} {t : Token}
    (hflat : t.kind.isFlat (frames.head?.map fun frame => frame.opening.brackets) = true) :
    (Builder.mk frames items).push t = ⟨frames, Component.token t :: items⟩ := by
  obtain ⟨kind, text⟩ := t
  cases kind with
  | function => cases hflat
  | opening bracket => cases hflat
  | closing bracket =>
      cases frames with
      | nil => rfl
      | cons frame frames =>
          have hne : frame.opening.brackets ≠ bracket := by simpa [Token.Kind.isFlat] using hflat
          simp only [push, closing, if_neg hne]
          rfl
  | _ => rfl

theorem push_token (frames : List Frame) (items : List Component) (opening : Opening) :
    (Builder.mk frames items).push opening.token = ⟨⟨opening, items⟩ :: frames, []⟩ := by
  cases opening with
  | bracket bracket => rfl
  | call name => simp [push, Opening.token, begin]

theorem push_close (frames : List Frame) (before items : List Component) (opening : Opening) :
    (Builder.mk (⟨opening, before⟩ :: frames) items).push
        ⟨.closing opening.brackets, [opening.brackets.close]⟩ =
      ⟨frames, block opening items.reverse true :: before⟩ := by
  simp [push, closing, Frame.close]

end Builder

/-- Component values that stand are read as they are. -/
theorem Stands.finish_foldl_push {enclosing : Option Bracket} {post : Text} {cs : List Component}
    (h : Stands enclosing post cs) (frames : List Frame) (items : List Component)
    (hframes : (frames.head?.map fun frame => frame.opening.brackets) = enclosing) :
    ((Token.tokenize (sources cs ++ post)).foldl Builder.push ⟨frames, items⟩).finish =
      ((Token.tokenize post).foldl Builder.push ⟨frames, cs.reverse ++ items⟩).finish := by
  induction h generalizing frames items with
  | nil => rfl
  | @token enclosing post t rest stands flat _ ih =>
      subst hframes
      rw [sources_cons, source, List.append_assoc, stands.tokenize, List.foldl_cons,
        Builder.push_of_isFlat flat, ih frames _ rfl, List.reverse_cons, List.append_assoc]
      rfl
  | @closed enclosing post opening body rest stands _ _ ihbody ih =>
      have htext : sources (block opening body true :: rest) ++ post =
          opening.token.text ++
            (sources body ++ opening.brackets.close :: (sources rest ++ post)) := by
        simp [source]
      have hclose := (Token.standsBefore_close opening.brackets (sources rest ++ post)).tokenize
      rw [List.singleton_append] at hclose
      rw [htext, stands.tokenize, List.foldl_cons, Builder.push_token,
        ihbody (⟨opening, items⟩ :: frames) [] rfl, hclose, List.foldl_cons, Builder.push_close,
        ih frames _ hframes]
      simp
  | @unclosed enclosing opening body stands _ ihbody =>
      have hbody := ihbody (⟨opening, items⟩ :: frames) [] rfl
      have htext : sources [block opening body false] ++ [] = opening.token.text ++ sources body := by
        simp [source]
      rw [List.append_nil] at hbody
      rw [htext, stands.tokenize, List.foldl_cons, Builder.push_token, hbody]
      simp [Builder.finish, Frame.close]

/-- Component values that stand before the end of the text are those of their text. -/
theorem ofText_sources {cs : List Component} (h : Stands none [] cs) : ofText (sources cs) = cs := by
  have hfold := h.finish_foldl_push [] [] rfl
  rw [List.append_nil] at hfold
  rw [ofText, ofTokens, Builder.empty, hfold]
  simp [Builder.finish]

/-- The component values of a text stand before its end. -/
theorem stands_ofText (text : Text) : Stands none [] (ofText text) := by
  obtain ⟨cs, post, rfl, hcs, hend⟩ := exists_stands none text
  rcases hend with rfl | ⟨bracket, rest, hnone, -⟩
  · rw [List.append_nil, ofText_sources hcs]
    exact hcs
  · cases hnone

/-- What stands keeps standing when the text behind a fence changes. -/
theorem Stands.fenced {enclosing : Option Bracket} {post post' mid : Text} {cs : List Component}
    (h : Stands enclosing (mid ++ post) cs) (hpost : Token.Fenced post)
    (hpost' : Token.Fenced post') (hne : mid ++ post ≠ []) : Stands enclosing (mid ++ post') cs := by
  generalize htext : mid ++ post = text at h hne
  induction h generalizing mid with
  | nil => exact .nil _ _
  | @token enclosing text t rest stands flat _ ih =>
      subst htext
      have hne' : sources rest ++ mid ++ post ≠ [] := by
        rw [List.append_assoc]
        exact List.append_ne_nil_of_right_ne_nil _ hne
      refine .token ?_ flat (ih rfl hne)
      rw [← List.append_assoc] at stands ⊢
      exact stands.fenced hpost hpost' hne'
  | @closed enclosing text opening body rest stands _ _ ihbody ih =>
      subst htext
      refine .closed ?_ ?_ (ih rfl hne)
      · have htext : ∀ post : Text,
            sources body ++ opening.brackets.close :: (sources rest ++ (mid ++ post)) =
              sources body ++ opening.brackets.close :: (sources rest ++ mid) ++ post := by simp
        rw [htext] at stands ⊢
        exact stands.fenced hpost hpost' (by simp)
      · rw [← List.append_assoc, ← List.cons_append]
        exact ihbody (by simp) (by simp)
  | unclosed => exact absurd rfl hne

theorem source_block_ne_nil {opening : Opening} {rest : Text}
    (h : opening.token.StandsBefore rest) (body : List Component) (closed : Bool) :
    source (block opening body closed) ≠ [] := by
  have htext := h.text_ne_nil
  rw [Opening.text_token] at htext
  rw [source, List.append_assoc]
  exact List.append_ne_nil_of_left_ne_nil htext _

theorem Stands.eq_nil_of_sources {enclosing : Option Bracket} {post : Text} {cs : List Component}
    (h : Stands enclosing post cs) (hnil : sources cs = []) : cs = [] := by
  cases h with
  | nil => rfl
  | token stands _ _ =>
      rw [sources_cons, source] at hnil
      exact absurd (List.append_eq_nil_iff.mp hnil).1 stands.text_ne_nil
  | closed stands _ _ =>
      rw [sources_cons] at hnil
      exact absurd (List.append_eq_nil_iff.mp hnil).1 (source_block_ne_nil stands _ _)
  | unclosed stands _ =>
      rw [sources_cons] at hnil
      exact absurd (List.append_eq_nil_iff.mp hnil).1 (source_block_ne_nil stands _ _)

/-- Component values that stand are those that stand at their start and those that stand behind. -/
theorem stands_append {enclosing : Option Bracket} {post : Text} {cs ds : List Component} :
    Stands enclosing post (cs ++ ds) ↔
      Stands enclosing (sources ds ++ post) cs ∧ Stands enclosing post ds := by
  induction cs with
  | nil => simp [Stands.nil]
  | cons c cs ih =>
      rw [List.cons_append]
      constructor
      · intro h
        generalize htail : cs ++ ds = tail at h ih
        cases h with
        | token stands flat behind =>
            obtain ⟨hcs, hds⟩ := ih.mp behind
            rw [← htail, sources_append, List.append_assoc] at stands
            exact ⟨.token stands flat hcs, hds⟩
        | closed stands inside behind =>
            obtain ⟨hcs, hds⟩ := ih.mp behind
            rw [← htail, sources_append, List.append_assoc] at stands inside
            exact ⟨.closed stands inside hcs, hds⟩
        | unclosed stands inside =>
            obtain ⟨rfl, rfl⟩ := List.append_eq_nil_iff.mp htail
            exact ⟨.unclosed stands inside, .nil _ _⟩
      · rintro ⟨h, hds⟩
        generalize htext : sources ds ++ post = text at h
        cases h with
        | token stands flat behind =>
            subst htext
            refine .token ?_ flat (ih.mpr ⟨behind, hds⟩)
            rwa [sources_append, List.append_assoc]
        | closed stands inside behind =>
            subst htext
            refine .closed ?_ ?_ (ih.mpr ⟨behind, hds⟩)
            · rwa [sources_append, List.append_assoc]
            · rwa [sources_append, List.append_assoc]
        | unclosed stands inside =>
            obtain ⟨hnil, rfl⟩ := List.append_eq_nil_iff.mp htext
            obtain rfl := hds.eq_nil_of_sources hnil
            exact .unclosed stands inside

end Component
end FluidSizing

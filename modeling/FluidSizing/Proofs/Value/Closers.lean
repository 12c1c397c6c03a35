import FluidSizing.Proofs.Token.Last
import FluidSizing.Proofs.Value.Lossless

/-! The written form of a value, read again. Behind the text of the value it has closing parentheses for
the calls and groups that are open there. The last token of the text may take some of them, and so may
open square or curly brackets; the others close calls and groups. Either way the nodes are the same as
before, but for the text of the last one and of the last one inside of it (`reprinted_ofText`). -/

namespace FluidSizing

/-- Nodes that differ by closing parentheses at the end: open strings and comments, words that are
garbled text, and functions whose last child is such a node. -/
inductive Node.Extended : Node → Node → Prop where
  | quoted (text text' : Text) : Extended (.quoted text) (.quoted text')
  | comment (text text' : Text) : Extended (.comment text) (.comment text')
  | word {text text' : Text} (h : text.Garbled) (h' : text'.Garbled) :
      Extended (.word text) (.word text')
  | function (name before : Text) (front : List Node) {n m : Node} (last : Extended n m) :
      Extended (.function name before (front ++ [n]) []) (.function name before (front ++ [m]) [])

namespace Value
open Component (Stands)

/-- Nodes, the last one first, of which at most the last is extended. -/
inductive Reprinted : List Node → List Node → Prop where
  | refl (nodes : List Node) : Reprinted nodes nodes
  | last {n m : Node} (h : n.Extended m) (rest : List Node) : Reprinted (n :: rest) (m :: rest)

/-- White space at the end of the children goes to the function; any other last node stays. -/
theorem callOf_cons {n : Node} (hn : ∀ text, n ≠ .space text) (name : Text) (rest : List Node) :
    callOf name (n :: rest) =
      .function name (takeSpace rest.reverse).1 ((takeSpace rest.reverse).2 ++ [n]) [] := by
  have hkeep : ∀ nodes, takeSpace (n :: nodes) = ([], n :: nodes) := by
    intro nodes
    cases n with
    | space text => exact absurd rfl (hn text)
    | _ => rfl
  have hfront : takeSpace (rest.reverse ++ [n]) =
      ((takeSpace rest.reverse).1, (takeSpace rest.reverse).2 ++ [n]) := by
    cases rest.reverse with
    | nil => exact hkeep []
    | cons m more => cases m <;> rfl
  unfold callOf
  rw [List.reverse_cons, hfront]
  dsimp only
  rw [List.reverse_append, List.reverse_singleton, List.singleton_append, hkeep]
  simp

theorem Extended.ne_space {n m : Node} (h : n.Extended m) :
    (∀ text, n ≠ .space text) ∧ ∀ text, m ≠ .space text := by
  cases h <;> exact ⟨nofun, nofun⟩

theorem Reprinted.callOf {inside inside' : List Node} (h : Reprinted inside inside') (name : Text) :
    callOf name inside = callOf name inside' ∨
      (callOf name inside).Extended (callOf name inside') := by
  cases h with
  | refl => exact Or.inl rfl
  | last hlast rest =>
      obtain ⟨hn, hm⟩ := Extended.ne_space hlast
      rw [callOf_cons hn, callOf_cons hm]
      exact Or.inr (.function _ _ _ hlast)

theorem reprinted_cons {n m : Node} (h : n = m ∨ n.Extended m) (rest : List Node) :
    Reprinted (n :: rest) (m :: rest) := by
  rcases h with rfl | h
  · exact .refl _
  · exact .last h rest

/-- Calls and groups take the parentheses of their blocks, closed or not. -/
theorem Reprinted.push_block {body body' : List Component}
    (h : Reprinted (pushAll [] body) (pushAll [] body')) {opening : Opening}
    (hround : opening.brackets = .round) (closed closed' : Bool) (nodes : List Node) :
    Reprinted (push nodes (.block opening body closed)) (push nodes (.block opening body' closed')) := by
  cases opening with
  | call name =>
      simp only [push]
      exact reprinted_cons (h.callOf name) nodes
  | bracket bracket =>
      obtain rfl : bracket = .round := hround
      simp only [push]
      cases nodes with
      | nil => exact reprinted_cons (h.callOf []) []
      | cons n rest =>
          cases n with
          | word name => exact reprinted_cons (h.callOf name) rest
          | _ => exact reprinted_cons (h.callOf []) _

theorem reprinted_pushWord {text text' : Text} (h : text.Garbled) (h' : text'.Garbled)
    (nodes : List Node) : Reprinted (pushWord nodes text) (pushWord nodes text') := by
  cases nodes with
  | nil => exact .last (.word h h') []
  | cons n rest =>
      cases n with
      | word front => exact .last (.word (h.prepend front) (h'.prepend front)) rest
      | _ => exact .last (.word h h') _

theorem reprinted_pushToken {kind : Token.Kind} {text : Text} {taken : Nat}
    (h : Token.Takes kind text taken) (nodes : List Node) :
    Reprinted (pushToken nodes ⟨kind, text⟩)
      (pushToken nodes ⟨kind, text ++ List.replicate taken ')'⟩) := by
  rcases h with rfl | rfl | rfl | ⟨hkind, htext⟩
  · rw [List.replicate_zero, List.append_nil]
    exact .refl _
  · exact .last (.quoted _ _) nodes
  · exact .last (.comment _ _) nodes
  · have hword := reprinted_pushWord htext (htext.append (List.replicate taken ')')) nodes
    rcases hkind with rfl | rfl | rfl <;> exact hword

/-- Component values with some closing parentheses behind the text they end: others that stand before
those of the parentheses that they do not take. -/
structure Closed (enclosing : Option Bracket) (cs cs' : List Component) (count left : Nat) : Prop where
  sources_eq : Component.sources cs' ++ List.replicate left ')' =
    Component.sources cs ++ List.replicate count ')'
  stands : Stands enclosing (List.replicate left ')') cs'
  left_le : left ≤ count - Component.openCalls cs
  reprinted : ∀ nodes, Reprinted (pushAll nodes cs) (pushAll nodes cs')

namespace Closed

variable {enclosing : Option Bracket} {count left : Nat}

/-- Tokens of closing parentheses, inside of other brackets. -/
theorem stands_closers (henclosing : enclosing ≠ some .round) (left : Nat) :
    Component.sources (List.replicate left (.token ⟨.closing .round, [')']⟩)) =
        List.replicate left ')' ∧
      Stands enclosing [] (List.replicate left (.token ⟨.closing .round, [')']⟩)) := by
  induction left with
  | zero => exact ⟨by simp, .nil _ _⟩
  | succ left ih =>
      obtain ⟨hsources, hstands⟩ := ih
      refine ⟨?_, ?_⟩
      · rw [List.replicate_succ, Component.sources_cons, hsources]
        rfl
      · exact .token (Token.standsBefore_close .round _) (by simpa [Token.Kind.isFlat] using henclosing)
          hstands

/-- An opening at the end of a text takes no closing parentheses. -/
theorem standsBefore_closers {opening : Opening} {rest : Text} (h : opening.token.StandsBefore rest)
    (count : Nat) : opening.token.StandsBefore (rest ++ List.replicate count ')') := by
  by_cases hrest : rest = []
  · subst hrest
    obtain ⟨taken, -, hstands, htakes⟩ := h.exists_extended count
    have hzero : taken = 0 := by
      rcases htakes with hzero | hkind | hkind | ⟨hkind, -⟩
      · exact hzero
      · cases opening <;> cases hkind
      · cases opening <;> cases hkind
      · cases opening <;> rcases hkind with hkind | hkind | hkind <;> cases hkind
    rw [hzero, List.replicate_zero, List.append_nil] at hstands
    exact hstands
  · exact h.closers count hrest

theorem nil (enclosing : Option Bracket) (count : Nat) : Closed enclosing [] [] count count where
  sources_eq := rfl
  stands := .nil _ _
  left_le := by simp
  reprinted := fun _ => .refl _

theorem lastToken {t : Token} (hstands : t.StandsBefore []) (hflat : t.kind.isFlat enclosing = true)
    (count : Nat) : ∃ cs' left, Closed enclosing [.token t] cs' count left := by
  obtain ⟨taken, hle, hextended, htakes⟩ := hstands.exists_extended count
  refine ⟨[.token ⟨t.kind, t.text ++ List.replicate taken ')'⟩], count - taken, ?_, ?_, ?_, ?_⟩
  · simp [Component.source, List.replicate_append_replicate, Nat.add_sub_cancel' hle]
  · exact .token hextended hflat (.nil _ _)
  · simp
  · intro nodes
    simp only [pushAll, push]
    exact reprinted_pushToken htakes nodes

theorem token {t : Token} {rest rest' : List Component}
    (hstands : t.StandsBefore (Component.sources rest)) (hflat : t.kind.isFlat enclosing = true)
    (hne : Component.sources rest ≠ []) (h : Closed enclosing rest rest' count left) :
    Closed enclosing (.token t :: rest) (.token t :: rest') count left where
  sources_eq := by simpa using h.sources_eq
  stands := by
    refine .token ?_ hflat h.stands
    rw [h.sources_eq]
    exact hstands.closers count hne
  left_le := by simpa using h.left_le
  reprinted := by
    intro nodes
    simp only [pushAll]
    exact h.reprinted _

theorem closed {opening : Opening} {body rest rest' : List Component}
    (hstands : opening.token.StandsBefore
      (Component.sources body ++ opening.brackets.close :: Component.sources rest))
    (hinside : Stands (some opening.brackets) (opening.brackets.close :: Component.sources rest) body)
    (h : Closed enclosing rest rest' count left) :
    Closed enclosing (.block opening body true :: rest) (.block opening body true :: rest') count
      left where
  sources_eq := by simpa using h.sources_eq
  stands := by
    have htext : opening.brackets.close :: (Component.sources rest' ++ List.replicate left ')') =
        opening.brackets.close :: Component.sources rest ++ List.replicate count ')' := by
      rw [h.sources_eq, List.cons_append]
    refine .closed ?_ ?_ h.stands
    · rw [htext, ← List.append_assoc]
      exact hstands.closers count (by simp)
    · rw [htext]
      rw [← List.nil_append (_ :: _)] at hinside
      exact hinside.fenced (Token.fenced_close _ _) (Token.fenced_close _ _) (by simp)
  left_le := by simpa using h.left_le
  reprinted := by
    intro nodes
    simp only [pushAll]
    exact h.reprinted _

/-- A call or group that is open at the end of the text takes the first parenthesis that nothing inside
of it takes. -/
theorem round {opening : Opening} {body body' : List Component} (hround : opening.brackets = .round)
    (hstands : opening.token.StandsBefore (Component.sources body))
    (h : Closed (some opening.brackets) body body' count left) :
    Closed enclosing [.block opening body false] [.block opening body' (0 < left)] count
      (left - 1) := by
  have hopening := standsBefore_closers hstands count
  rw [← h.sources_eq] at hopening
  have hclose : opening.brackets.close = ')' := by
    rw [hround]
    rfl
  have hinside := h.stands
  have hsources := congrArg (opening.text ++ ·) h.sources_eq
  refine ⟨?_, ?_, ?_, ?_⟩
  · cases left with
    | zero => simpa [Component.source] using hsources
    | succ left => simpa [Component.source, hclose, List.replicate_succ] using hsources
  · cases left with
    | zero =>
        rw [List.replicate_zero, List.append_nil] at hopening
        exact .unclosed hopening hinside
    | succ left =>
        refine .closed ?_ ?_ (.nil _ _)
        · simpa [hclose, List.replicate_succ] using hopening
        · simpa [hclose, List.replicate_succ] using hinside
  · have hle := h.left_le
    rw [Component.openCalls_unclosed, if_pos hround]
    omega
  · intro nodes
    simp only [pushAll]
    exact (h.reprinted []).push_block hround _ _ nodes

/-- A block in other brackets that is open at the end of the text takes all parentheses. -/
theorem other {opening : Opening} {body body' : List Component} (hround : opening.brackets ≠ .round)
    (hstands : opening.token.StandsBefore (Component.sources body))
    (h : Closed (some opening.brackets) body body' count left) :
    Closed enclosing [.block opening body false]
      [.block opening (body' ++ List.replicate left (.token ⟨.closing .round, [')']⟩)) false] count
      0 := by
  obtain ⟨hclosers, hstandsClosers⟩ := stands_closers (fun heq => hround (Option.some.inj heq)) left
  have hopening := standsBefore_closers hstands count
  have hsources : Component.sources (body' ++ List.replicate left (.token ⟨.closing .round, [')']⟩)) =
      Component.sources body ++ List.replicate count ')' := by
    rw [Component.sources_append, hclosers, h.sources_eq]
  have hgarbled : ∀ body, (Component.source (.block opening body false)).Garbled := by
    intro body
    cases opening with
    | call name => exact absurd rfl hround
    | bracket bracket =>
        cases bracket with
        | round => exact absurd rfl hround
        | square => exact ⟨'[', by simp [Component.source, Opening.text, Bracket.opener], by simp⟩
        | curly => exact ⟨'\x7b', by simp [Component.source, Opening.text, Bracket.opener], by simp⟩
  refine ⟨?_, ?_, Nat.zero_le _, ?_⟩
  · simp only [Component.sources_cons, Component.source, hsources]
    simp
  · refine .unclosed (by rwa [hsources]) (Component.stands_append.mpr ⟨?_, hstandsClosers⟩)
    rw [hclosers, List.append_nil]
    exact h.stands
  · intro nodes
    have hword := fun body body' => reprinted_pushWord (hgarbled body) (hgarbled body') nodes
    simp only [pushAll]
    cases opening with
    | call name => exact absurd rfl hround
    | bracket bracket =>
        cases bracket with
        | round => exact absurd rfl hround
        | square => exact hword _ _
        | curly => exact hword _ _

end Closed

/-- Whatever number of closing parentheses stands behind a text, its component values take some of them
and the others stand behind. -/
theorem exists_closed {enclosing : Option Bracket} {post : Text} {cs : List Component}
    (h : Stands enclosing post cs) (hpost : post = []) (count : Nat) :
    ∃ cs' left, Closed enclosing cs cs' count left := by
  induction h with
  | nil enclosing => exact ⟨[], count, .nil enclosing count⟩
  | @token enclosing post t rest stands flat behind ih =>
      subst hpost
      rw [List.append_nil] at stands
      by_cases hrest : Component.sources rest = []
      · obtain rfl := behind.eq_nil_of_sources hrest
        exact Closed.lastToken stands flat count
      · obtain ⟨rest', left, hclosed⟩ := ih rfl
        exact ⟨_, left, hclosed.token stands flat hrest⟩
  | @closed enclosing post opening body rest stands inside _ _ ih =>
      subst hpost
      rw [List.append_nil] at stands inside
      obtain ⟨rest', left, hclosed⟩ := ih rfl
      exact ⟨_, left, hclosed.closed stands inside⟩
  | @unclosed enclosing opening body stands _ ihbody =>
      obtain ⟨body', left, hclosed⟩ := ihbody rfl
      by_cases hround : opening.brackets = .round
      · exact ⟨_, _, hclosed.round hround stands⟩
      · exact ⟨_, _, hclosed.other hround stands⟩

/-- Reading the written form of a value gives the same nodes, of which at most the last is extended. -/
theorem reprinted_ofText (text : Text) :
    Reprinted (ofText text).reverse (ofText (ofText text).render).reverse := by
  obtain ⟨cs, left, hclosed⟩ :=
    exists_closed (Component.stands_ofText text) rfl (Token.openCalls text)
  have hzero : left = 0 := by
    have hle := hclosed.left_le
    rw [Component.openCalls_ofText] at hle
    omega
  have hsources := hclosed.sources_eq
  have hstands := hclosed.stands
  rw [hzero, List.replicate_zero] at hsources hstands
  rw [List.append_nil, Component.source_ofText, ← render_ofText] at hsources
  have hnodes := hclosed.reprinted []
  rw [← Component.ofText_sources hstands, hsources] at hnodes
  unfold ofText ofComponents at hnodes ⊢
  rwa [List.reverse_reverse, List.reverse_reverse]

end Value
end FluidSizing

import FluidSizing.Proofs.Component.Near
import FluidSizing.Proofs.Component.Open
import FluidSizing.Proofs.Token.Closed

/-! Component values of parts of a text. Those that stand at the start of a text are the first of those
read of it (`Stands.ofText_append`), so the same part read alone and read in a larger text can be compared
without reading either again. Text put behind a text without backslashes is read apart from it just if
nothing is left open there (`stands_of_closed`, `closed_iff`). White space at the start of a text is a
token of its own, and white space at the end closes no call (`openCalls_of_append_blank`). -/

namespace FluidSizing

open Token (Apart Near)

namespace Component

variable {enclosing enclosing' : Option Bracket} {post post' : Text} {cs : List Component}

theorem Stands.isFlat_of_mem (h : Stands enclosing post cs) :
    ∀ t, Component.token t ∈ cs → t.kind.isFlat enclosing = true := by
  induction h with
  | nil => simp
  | token _ flat _ ih =>
      intro t ht
      rcases List.mem_cons.mp ht with heq | ht
      · rwa [Component.token.inj heq]
      · exact ih t ht
  | closed _ _ _ _ ih =>
      intro t ht
      rcases List.mem_cons.mp ht with heq | ht
      · cases heq
      · exact ih t ht
  | unclosed => simp

/-- Inside other brackets the same component values stand, if none of their tokens closes those. -/
theorem Stands.enclose (h : Stands enclosing post cs)
    (hflat : ∀ t, Component.token t ∈ cs → t.kind.isFlat enclosing' = true) : Stands enclosing' post cs := by
  induction h with
  | nil => exact .nil _ _
  | token stands _ _ ih =>
      exact .token stands (hflat _ List.mem_cons_self)
        (ih fun t ht => hflat t (List.mem_cons_of_mem _ ht))
  | closed stands inside _ _ ih =>
      exact .closed stands inside (ih fun t ht => hflat t (List.mem_cons_of_mem _ ht))
  | unclosed stands inside => exact .unclosed stands inside

theorem Stands.unenclosed (h : Stands enclosing post cs) : Stands none post cs := by
  refine h.enclose fun t ht => ?_
  have hflat := h.isFlat_of_mem t ht
  cases hkind : t.kind with
  | function => rw [hkind] at hflat; cases hflat
  | opening => rw [hkind] at hflat; cases hflat
  | _ => rfl

/-- What stands at the start of a text is read first. -/
theorem Stands.ofText_append {text : Text} (h : Stands none text cs) :
    ofText (sources cs ++ text) = cs ++ ofText text := by
  have hall : Stands none [] (cs ++ ofText text) := by
    rw [stands_append, source_ofText, List.append_nil]
    exact ⟨h, stands_ofText text⟩
  rw [← ofText_sources hall, sources_append, source_ofText]

/-- What stands before other text keeps standing when more text is put behind that. -/
theorem Stands.ahead {text : Text} (h : Stands enclosing text cs) (hne : text ≠ [])
    (hpost : Apart post) : Stands enclosing (text ++ post) cs := by
  induction h with
  | nil => exact .nil _ _
  | token stands flat _ ih =>
      refine .token ?_ flat (ih hne)
      rw [← List.append_assoc]
      exact stands.ahead (List.append_ne_nil_of_right_ne_nil _ hne) hpost
  | @closed enclosing text opening body rest stands inside _ ihbody ih =>
      refine .closed ?_ ?_ (ih hne)
      · have hstands := stands.ahead (by simp) hpost
        simpa using hstands
      · have hinside := ihbody (List.cons_ne_nil _ _)
        simpa using hinside
  | unclosed => exact absurd rfl hne

/-- An opening keeps standing when text is put behind, at the end of the text too. -/
theorem standsBefore_opening {opening : Opening} {rest : Text} (h : opening.token.StandsBefore rest)
    (hpost : Apart post) : opening.token.StandsBefore (rest ++ post) := by
  by_cases hne : rest = []
  · subst hne
    obtain ⟨c, more, htext, hscan⟩ := h
    rw [List.append_nil] at hscan
    refine ⟨c, more, htext, ?_⟩
    cases opening with
    | call name => exact Token.scan_function_apart hpost hscan
    | bracket bracket =>
        obtain ⟨rfl, rfl⟩ := List.cons.inj htext
        cases bracket <;> rfl
  · exact h.ahead hne hpost

/-- The inside of a block and what follows it are shorter than both together. -/
theorem length_lt_block {opening : Opening} {rest : Text} (h : opening.token.StandsBefore rest)
    (body : List Component) (closed : Bool) (behind : List Component) :
    (sources body).length < (sources (block opening body closed :: behind)).length ∧
      (sources behind).length < (sources (block opening body closed :: behind)).length := by
  have hopen := List.length_pos_iff.mpr h.text_ne_nil
  rw [Opening.text_token] at hopen
  simp only [sources_cons, source, List.length_append]
  omega

/-- Component values that end with a closed block stand before any text. -/
theorem Stands.of_closed_last {opening : Opening} {body : List Component}
    (h : Stands enclosing post (cs ++ [block opening body true])) :
    Stands enclosing post' (cs ++ [block opening body true]) := by
  obtain ⟨hfront, hlast⟩ := stands_append.mp h
  have hnear : ∀ front : Text, Near (front ++ opening.brackets.close :: post)
      (front ++ opening.brackets.close :: post') := fun front =>
    .fenced front (Token.fenced_close _ _) (Token.fenced_close _ _) (List.cons_ne_nil _ _)
  refine stands_append.mpr ⟨?_, ?_⟩
  · refine hfront.near ?_
    have hchange := hnear (opening.text ++ sources body)
    simpa [source] using hchange
  · cases hlast with
    | closed stands inside _ =>
        rw [sources_nil, List.nil_append] at stands inside
        refine .closed ?_ ?_ (.nil _ _)
        · exact stands.near (hnear _)
        · exact inside.near (hnear [])

/-- Whether a component value at the end of a text waits for its end. -/
def isOpen : Component → Bool
  | token t => t.isOpen
  | block _ _ closed => !closed

/-- A text without backslashes whose last component value is closed is read the same before any text that
does not go on with it; if it ends with white space, the text behind does not start with any. -/
theorem stands_of_closed {text : Text} (hlast : ∀ c ∈ (ofText text).getLast?, c.isOpen = false)
    (hback : '\\' ∉ text) (hpost : Apart post)
    (hhead : ∀ t, token t ∈ (ofText text).getLast? → t.kind = .whitespace →
      ∀ c ∈ post.head?, Token.isBlank c = false) :
    Stands none post (ofText text) := by
  have hstands := stands_ofText text
  have hsource := source_ofText text
  generalize ofText text = cs at hlast hstands hsource hhead
  rcases List.eq_nil_or_concat cs with rfl | ⟨front, c, rfl⟩
  · exact .nil _ _
  rw [List.concat_eq_append] at hlast hstands hsource hhead ⊢
  have hopen : c.isOpen = false := hlast c (by simp)
  cases c with
  | block opening body closed =>
      obtain rfl : closed = true := by simpa [isOpen] using hopen
      exact hstands.of_closed_last
  | token t =>
      obtain ⟨hfront, hend⟩ := stands_append.mp hstands
      cases hend with
      | token stands flat _ =>
          rw [sources_nil, List.nil_append] at stands
          have hslash : '\\' ∉ t.text := fun hmem => hback (by simp [← hsource, source, hmem])
          have hlast := stands.of_closed hslash hopen hpost (hhead t (by simp))
          refine stands_append.mpr ⟨?_, .token hlast flat (.nil _ _)⟩
          rw [List.append_nil] at hfront
          exact hfront.ahead (by simpa [source] using stands.text_ne_nil) hpost

/-- Nothing is left open at the end of a text without backslashes just if a semicolon behind the text is
read as one. -/
theorem closed_iff {text : Text} (hback : '\\' ∉ text) :
    (∀ c ∈ (ofText text).getLast?, c.isOpen = false) ↔
      ofText (text ++ [';']) = ofText text ++ [token ⟨.semicolon, [';']⟩] := by
  have hsemicolon : Stands none [] [token ⟨.semicolon, [';']⟩] :=
    .token ⟨';', [], rfl, rfl⟩ rfl (.nil _ _)
  have hone : ofText [';'] = [token ⟨.semicolon, [';']⟩] := by
    have hread := ofText_sources hsemicolon
    rwa [sources_cons, source, sources_nil, List.append_nil] at hread
  constructor
  · intro hlast
    have hstands := stands_of_closed hlast hback (Token.apart_semicolon []) fun _ _ _ => by
      rintro c ⟨⟩
      decide
    have hread := hstands.ofText_append
    rwa [source_ofText, hone] at hread
  · intro hread c hc
    have hall := stands_ofText (text ++ [';'])
    rw [hread] at hall
    obtain ⟨front, hfront⟩ := List.getLast?_eq_some_iff.mp hc
    have hstands := stands_ofText text
    have hsource := source_ofText text
    rw [hfront] at hall hstands hsource
    obtain ⟨hbefore, -⟩ := stands_append.mp hall
    obtain ⟨-, hend⟩ := stands_append.mp hbefore
    obtain ⟨-, hend'⟩ := stands_append.mp hstands
    rw [sources_cons, source, sources_nil] at hend
    cases hend with
    | closed => rfl
    | token stands _ _ =>
        cases hend' with
        | token stands' _ _ =>
            refine (stands'.isOpen_eq_false_iff fun hmem => hback ?_).mpr stands
            rw [← hsource]
            simp [source, hmem]
def blanks : Text → List Component
  | [] => []
  | text => [token ⟨.whitespace, text⟩]

@[simp] theorem sources_blanks (text : Text) : sources (blanks text) = text := by
  cases text <;> simp [blanks, source]

@[simp] theorem openCalls_blanks_append (text : Text) (cs : List Component) :
    openCalls (blanks text ++ cs) = openCalls cs := by
  cases text <;> simp [blanks]

/-- White space stands before a text without white space at its start. -/
theorem stands_blanks {text : Text} (htext : ∀ c ∈ text, Token.isBlank c = true)
    (hpost : ∀ c ∈ post.head?, Token.isBlank c = false) : Stands enclosing post (blanks text) := by
  cases text with
  | nil => exact .nil _ _
  | cons c text =>
      obtain ⟨hc, htext⟩ := List.forall_mem_cons.mp htext
      refine .token ⟨c, text, rfl, ?_⟩ rfl (.nil _ _)
      rw [sources_nil, List.nil_append, Token.scan, if_pos hc, List.takeWhile_append_of_pos htext,
        Token.takeWhile_of_head? hpost, List.append_nil]

theorem ofText_blanks {text : Text} (htext : ∀ c ∈ text, Token.isBlank c = true)
    (hpost : ∀ c ∈ post.head?, Token.isBlank c = false) :
    ofText (text ++ post) = blanks text ++ ofText post := by
  have hstands : Stands none post (blanks text) := stands_blanks htext hpost
  have hread := hstands.ofText_append
  rwa [sources_blanks] at hread

/-- A call or group that the text leaves open. -/
def isOpenCall : Component → Bool
  | token _ => false
  | block opening _ closed => opening.brackets = .round && !closed

/-- Component values of a value leave no call open if none of them is an open call. -/
theorem Stands.openCalls_eq_zero_iff (h : Stands enclosing post cs) :
    openCalls cs = 0 ↔ ∀ c ∈ cs, c.isOpenCall = false := by
  induction h with
  | nil => simp
  | token _ _ _ ih => simp [ih, isOpenCall]
  | closed _ _ _ _ ih => simp [ih, isOpenCall]
  | unclosed =>
      rw [openCalls_unclosed]
      split <;> simp_all [isOpenCall]

/-- An open block is the last of the component values. -/
theorem Stands.eq_nil_of_unclosed {front behind : List Component} {opening : Opening}
    {body : List Component}
    (h : Stands enclosing post (front ++ block opening body false :: behind)) : behind = [] := by
  obtain ⟨-, hlast⟩ := stands_append.mp h
  cases hlast
  rfl

/-- Inside a call that a text leaves open, white space behind the text is the end of that call or
nothing: no parenthesis of the text closes the call. -/
theorem endsBlock_append_blank {body rest : List Component} {blank : Text}
    (hblank : ∀ c ∈ blank, Token.isBlank c = true) (hbody : Stands (some .round) [] body)
    (hrest : Stands (some .round) post rest) (hend : EndsBlock (some .round) post)
    (htext : sources body ++ blank = sources rest ++ post) : post = [] := by
  rcases hend with hnil | ⟨bracket, behind, hbracket, rfl⟩
  · exact hnil
  exfalso
  obtain rfl := Option.some.inj hbracket
  rcases List.append_eq_append_iff.mp htext with ⟨more, -, hmore⟩ | ⟨more, hsources, hmore⟩
  · exact absurd (hblank Bracket.round.close (hmore ▸ by simp)) (by decide)
  · cases more with
    | nil =>
        rw [List.nil_append] at hmore
        exact absurd (hblank Bracket.round.close (hmore ▸ List.mem_cons_self)) (by decide)
    | cons c more =>
        obtain ⟨rfl, -⟩ := List.cons.inj hmore
        -- the parenthesis is a token of its own where the body is read alone
        have hclose : Stands none (Bracket.round.close :: more) rest := by
          rw [← List.nil_append (_ :: _)] at hrest ⊢
          exact (hrest.fenced (Token.fenced_close _ _) (Token.fenced_close _ _) (by simp)).unenclosed
        have htoken : Stands none more [token ⟨.closing .round, [Bracket.round.close]⟩] :=
          .token (Token.standsBefore_close .round _) rfl (.nil _ _)
        have hread := hclose.ofText_append
        rw [← hsources, ofText_sources hbody.unenclosed] at hread
        have htail := htoken.ofText_append
        simp only [sources_cons, source, sources_nil, List.append_nil, List.singleton_append] at htail
        have hflat := hbody.isFlat_of_mem ⟨.closing .round, [Bracket.round.close]⟩ (by
          rw [hread, htail]
          simp)
        cases hflat

/-- White space at the end of a text closes no call. -/
theorem openCalls_of_append_blank {text blank : Text} (hblank : ∀ c ∈ blank, Token.isBlank c = true)
    (h : Token.openCalls (text ++ blank) = 0) : Token.openCalls text = 0 := by
  cases hcase : blank with
  | nil => rwa [hcase, List.append_nil] at h
  | cons first more =>
      have hpost : Apart blank := by
        rw [hcase]
        exact Token.apart_of_isBlank (hblank first (hcase ▸ List.mem_cons_self)) more
      rw [← openCalls_ofText] at h ⊢
      have hstands := stands_ofText text
      rw [hstands.openCalls_eq_zero_iff]
      rw [(stands_ofText (text ++ blank)).openCalls_eq_zero_iff] at h
      intro c hc
      by_contra hopen
      obtain ⟨opening, body, rfl, hround⟩ : ∃ opening body, c = block opening body false ∧
          opening.brackets = .round := by
        cases c with
        | token t => simp [isOpenCall] at hopen
        | block opening body closed =>
            cases closed with
            | true => simp [isOpenCall] at hopen
            | false => exact ⟨opening, body, rfl, by simpa [isOpenCall] using hopen⟩
      obtain ⟨front, behind, hsplit⟩ := List.append_of_mem hc
      rw [hsplit] at hstands
      obtain rfl := hstands.eq_nil_of_unclosed
      obtain ⟨hfront, hlast⟩ := stands_append.mp hstands
      rw [List.append_nil] at hfront
      cases hlast with
      | unclosed hopening hbody =>
          obtain ⟨rest, post, htext, hrest, hend⟩ := exists_stands (some .round) (sources body ++ blank)
          rw [hround] at hbody
          obtain rfl := endsBlock_append_blank hblank hbody hrest hend htext
          rw [List.append_nil] at htext
          have hsources : sources (front ++ [block opening rest false]) = text ++ blank := by
            rw [← source_ofText text, hsplit]
            simp [source, ← htext]
          have hall : Stands none [] (front ++ [block opening rest false]) := by
            refine stands_append.mpr ⟨?_, .unclosed ?_ ?_⟩
            · have hne : sources [block opening body false] ≠ [] := by
                simpa using source_block_ne_nil hopening body false
              have hahead := hfront.ahead hne hpost
              simpa [source, ← htext] using hahead
            · rw [← htext]
              exact standsBefore_opening hopening hpost
            · rwa [hround]
          have hread := ofText_sources hall
          rw [hsources] at hread
          have hmem := h (block opening rest false) (by rw [hread]; simp)
          simp [isOpenCall, hround] at hmem

end Component
end FluidSizing

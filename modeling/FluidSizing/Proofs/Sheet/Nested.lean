import FluidSizing.Proofs.Sheet.Rewriting

/-! Rules inside of rules. What stands before a block is read by two readers, one for sheets and one for
blocks. They take the same steps on a prelude (`Pending.Selects.token`), so a text that is a rule by itself
is the same rule inside of another one (`Piece.ofText_enclosed`, `blockPieces_eq_sheetPieces`), with its
declarations elsewhere in the sheet but otherwise the same. The exception are preludes that start with a
name and a colon: in a block these start a declaration, and the block of the rule becomes part of its
value (`blockPieces_of_startsDeclaration`). -/

namespace FluidSizing

open Component (Stands)

namespace Component

/-- The kind of the first token that is neither white space nor a comment, if no block stands before it. -/
def leadKind? : List Component → Option Token.Kind
  | token t :: rest => if t.kind.isTrivia then leadKind? rest else some t.kind
  | _ => none

/-- Whether component values start with a name and a colon, as declarations do. -/
def startsDeclaration : List Component → Bool
  | token t :: rest =>
      if t.kind.isTrivia then startsDeclaration rest
      else t.kind = .ident && leadKind? rest = some .colon
  | _ => false

/-- Whether a component value is part of a prelude: it is no semicolon and has no curly bracket. -/
def isPreludePart : Component → Bool
  | token t => t.kind ≠ .semicolon && t.kind ≠ .closing .curly
  | block opening _ _ => opening ≠ .bracket .curly

theorem kind_ne_of_isPreludePart {t : Token} (h : (token t).isPreludePart = true) :
    t.kind ≠ .semicolon ∧ t.kind ≠ .closing .curly := by
  simpa [isPreludePart] using h

/-- Whether a component value is a closed block in curly brackets. -/
def isRuleBlock : Component → Bool
  | block (.bracket .curly) _ closed => closed
  | _ => false

theorem exists_body_of_isRuleBlock {c : Component} (h : c.isRuleBlock = true) :
    ∃ body, c = .block (.bracket .curly) body true := by
  unfold isRuleBlock at h
  split at h
  · rename_i body closed
    exact ⟨body, by rw [h]⟩
  · cases h

end Component

open Component (leadKind? startsDeclaration)

/-- A text that ends with a block in curly brackets, behind a prelude. The block is closed; the prelude has
neither a semicolon nor a curly bracket outside of other brackets, and is not that of an at-rule. Sheets
skip the two marks of comments, so it starts with neither of them. -/
structure SpellsRule (text : Text) : Prop where
  block : (Component.ofText text).getLast?.any Component.isRuleBlock = true
  prelude : (Component.ofText text).dropLast.all Component.isPreludePart = true
  start : ∀ kind ∈ leadKind? (Component.ofText text),
    kind ≠ .atKeyword ∧ kind ≠ .commentOpen ∧ kind ≠ .commentClose

theorem SpellsRule.exists_components {text : Text} (h : SpellsRule text) :
    ∃ head body, Component.ofText text = head ++ [.block (.bracket .curly) body true] ∧
      ∀ c ∈ head, c.isPreludePart = true := by
  obtain ⟨c, hlast, hblock⟩ := Option.any_eq_true _ _ |>.mp h.block
  obtain ⟨body, rfl⟩ := Component.exists_body_of_isRuleBlock hblock
  obtain ⟨head, hcomponents⟩ := List.getLast?_eq_some_iff.mp hlast
  refine ⟨head, body, hcomponents, ?_⟩
  have hprelude := h.prelude
  rw [hcomponents, List.dropLast_concat] at hprelude
  exact List.all_eq_true.mp hprelude

/-- Outside of brackets a text of a rule has neither a semicolon nor a closing curly bracket. -/
theorem SpellsRule.kind_ne {text : Text} (h : SpellsRule text) {t : Token}
    (ht : Component.token t ∈ Component.ofText text) :
    t.kind ≠ .semicolon ∧ t.kind ≠ .closing .curly := by
  obtain ⟨head, body, hcomponents, hparts⟩ := h.exists_components
  rw [hcomponents] at ht
  rcases List.mem_append.mp ht with ht | ht
  · exact Component.kind_ne_of_isPreludePart (hparts _ ht)
  · cases List.mem_singleton.mp ht

namespace Pending

/-- What has been read is blank or part of a selector, and what follows makes no declaration of it. -/
def Selects (pending : Pending) (rest : List Component) : Prop :=
  match pending with
  | nothing =>
      (∀ kind ∈ leadKind? rest,
        kind ≠ .atKeyword ∧ kind ≠ .commentOpen ∧ kind ≠ .commentClose) ∧
        startsDeclaration rest = false
  | named _ _ => leadKind? rest ≠ some .colon
  | selector _ => True
  | _ => False

namespace Selects

variable {pending : Pending} {rest : List Component}

theorem prelude?_eq (h : pending.Selects rest) :
    pending.prelude? = some (.selector pending.source) := by
  cases pending with
  | nothing | named | selector => rfl
  | _ => cases h

theorem extend (h : pending.Selects rest) (text : Text) (behind : List Component) :
    (pending.extend text).Selects behind := by
  cases pending with
  | nothing | named | selector => trivial
  | _ => cases h

/-- A token of a prelude is read the same way in a sheet and in a block, and ends no item. -/
theorem token {t : Token} (h : pending.Selects (.token t :: rest)) (first : Bool)
    (hsemicolon : t.kind ≠ .semicolon) :
    pending.atTop first t = pending.inBlock t ∧ (pending.inBlock t).2.Selects rest ∧
      ∀ place, Piece.itemsOf place (pending.inBlock t).1 = [] := by
  cases pending with
  | nothing =>
      obtain ⟨hlead, hstart⟩ := h
      rw [leadKind?] at hlead
      rw [startsDeclaration] at hstart
      by_cases htrivia : t.kind.isTrivia = true
      · rw [if_pos htrivia] at hlead hstart
        have hnext : nothing.inBlock t = ([.skipped t.text], nothing) := by simp [inBlock, htrivia]
        rw [hnext]
        exact ⟨by simp [atTop, htrivia], ⟨hlead, hstart⟩, fun _ => rfl⟩
      · rw [if_neg htrivia] at hlead hstart
        obtain ⟨hat, hopen, hclose⟩ := hlead _ rfl
        by_cases hident : t.kind = .ident
        · have hnext : nothing.inBlock t = ([], named t.text []) := by
            simp [inBlock, hident, Token.Kind.isTrivia]
          have hcolon : leadKind? rest ≠ some .colon := by simpa [hident] using hstart
          rw [hnext]
          exact ⟨by simp [atTop, hident, Token.Kind.isTrivia], hcolon, fun _ => rfl⟩
        · have hnext : nothing.inBlock t = ([], selector t.text) := by
            simp [inBlock, htrivia, hat, hident, hsemicolon]
          rw [hnext]
          exact ⟨by simp [atTop, htrivia, hat, hopen, hclose, hident], trivial, fun _ => rfl⟩
  | named name between =>
      have hlead : leadKind? (.token t :: rest) ≠ some .colon := h
      rw [leadKind?] at hlead
      by_cases htrivia : t.kind.isTrivia = true
      · rw [if_pos htrivia] at hlead
        have hnext : (named name between).inBlock t = ([], named name (between ++ t.text)) := by
          simp [inBlock, htrivia]
        rw [hnext]
        exact ⟨by simp [atTop, htrivia], hlead, fun _ => rfl⟩
      · rw [if_neg htrivia] at hlead
        have hcolon : t.kind ≠ .colon := fun hkind => hlead (by rw [hkind])
        have hnext : (named name between).inBlock t =
            ([], selector (name ++ between ++ t.text)) := by
          simp [inBlock, htrivia, hcolon, hsemicolon]
        rw [hnext]
        exact ⟨by simp [atTop, htrivia, hcolon], trivial, fun _ => rfl⟩
  | selector text =>
      have hnext : (selector text).inBlock t = ([], selector (text ++ t.text)) := by
        simp [inBlock, hsemicolon]
      rw [hnext]
      exact ⟨rfl, trivial, fun _ => rfl⟩
  | _ => cases h

end Selects

end Pending

/-- Up to the end of its block a rule is read the same way in a sheet and in a block, if it is read. -/
theorem blockPieces_eq_sheetPieces {head body : List Component} (first : Bool) {pending : Pending}
    {place : Position} (hparts : ∀ c ∈ head, c.isPreludePart = true)
    (hselects : pending.Selects (head ++ [.block (.bracket .curly) body true]))
    (hitems : Piece.itemsOf place
      (sheetPieces first pending (head ++ [.block (.bracket .curly) body true])) ≠ []) :
    blockPieces pending (head ++ [.block (.bracket .curly) body true]) =
      sheetPieces first pending (head ++ [.block (.bracket .curly) body true]) := by
  induction head generalizing first pending place with
  | nil =>
      rw [List.nil_append] at hselects hitems ⊢
      have hprelude := hselects.prelude?_eq
      rw [sheetPieces_rule] at hitems ⊢
      rw [blockPieces_rule hprelude]
      unfold Pending.ruleAtTop at hitems ⊢
      simp only [hprelude] at hitems ⊢
      -- a blank prelude is dropped with its block, and then nothing is left
      split
      · rename_i hblank
        rw [if_pos hblank] at hitems
        exact absurd rfl hitems
      · rfl
  | cons c head ih =>
      obtain ⟨hc, hhead⟩ := List.forall_mem_cons.mp hparts
      rw [List.cons_append] at hselects hitems ⊢
      cases c with
      | token t =>
          obtain ⟨hsemicolon, -⟩ := Component.kind_ne_of_isPreludePart hc
          obtain ⟨hsame, hnext, hnone⟩ := hselects.token first hsemicolon
          rw [sheetPieces_token, hsame] at hitems ⊢
          rw [Piece.itemsOf_append, hnone, List.nil_append] at hitems
          rw [blockPieces_token, ih _ hhead hnext hitems]
      | block opening inside closed =>
          have hcurly : opening ≠ .bracket .curly := by
            simpa [Component.isPreludePart] using hc
          rw [sheetPieces_extend _ _ hcurly] at hitems ⊢
          rw [blockPieces_extend (fun h => hcurly h.1)]
          exact ih _ hhead (hselects.extend _ _) hitems

/-- A name with a colon behind it starts a declaration, which goes on to the end without a semicolon. -/
theorem blockPieces_named {cs : List Component} (h : leadKind? cs = some .colon)
    (hplain : ∀ t, Component.token t ∈ cs → t.kind ≠ .semicolon) (name between : Text) :
    ∃ between' raw, blockPieces (.named name between) cs = [.declaration name between' raw] := by
  induction cs generalizing between with
  | nil => cases h
  | cons c cs ih =>
      have hrest : ∀ t, Component.token t ∈ cs → t.kind ≠ .semicolon := fun t ht =>
        hplain t (List.mem_cons_of_mem c ht)
      cases c with
      | block => cases h
      | token t =>
          rw [leadKind?] at h
          rw [blockPieces_token]
          by_cases htrivia : t.kind.isTrivia = true
          · rw [if_pos htrivia] at h
            obtain ⟨between', raw, hread⟩ := ih h hrest (between ++ t.text)
            exact ⟨between', raw, by simp [Pending.inBlock, htrivia, hread]⟩
          · rw [if_neg htrivia] at h
            have hcolon : t.kind = .colon := Option.some.inj h
            have hvalue := blockPieces_value name (between ++ t.text) [] hrest []
            rw [List.append_nil, List.nil_append] at hvalue
            refine ⟨between ++ t.text, Component.sources cs, ?_⟩
            simp [Pending.inBlock, hcolon, Token.Kind.isTrivia, hvalue, blockPieces, Pending.atEnd]

/-- What starts like a declaration is one in a block, to its end. -/
theorem blockPieces_of_startsDeclaration {cs : List Component} (h : startsDeclaration cs = true)
    (hplain : ∀ t, Component.token t ∈ cs → t.kind ≠ .semicolon) (place : Position) :
    ∃ d, Piece.itemsOf place (blockPieces .nothing cs) = [.declaration d] := by
  induction cs generalizing place with
  | nil => cases h
  | cons c cs ih =>
      have hrest : ∀ t, Component.token t ∈ cs → t.kind ≠ .semicolon := fun t ht =>
        hplain t (List.mem_cons_of_mem c ht)
      cases c with
      | block => cases h
      | token t =>
          rw [startsDeclaration] at h
          rw [blockPieces_token]
          by_cases htrivia : t.kind.isTrivia = true
          · rw [if_pos htrivia] at h
            simpa [Pending.inBlock, htrivia, Piece.itemsOf, Piece.items] using ih h hrest _
          · rw [if_neg htrivia, Bool.and_eq_true, decide_eq_true_eq, decide_eq_true_eq] at h
            obtain ⟨hident, hcolon⟩ := h
            obtain ⟨between, raw, hread⟩ := blockPieces_named hcolon hrest t.text []
            refine ⟨Declaration.ofSource place t.text between raw, ?_⟩
            simp [Pending.inBlock, hident, Token.Kind.isTrivia, hread, Piece.itemsOf, Piece.items]

/-- Put into the block of another rule, a rule keeps its component values, and they are the whole block. -/
theorem SpellsRule.ofText_enclosed {text : Text} (h : SpellsRule text) :
    Piece.ofText ("x\x7b".toList ++ text ++ "\x7d".toList) =
      [.rule (.selector ['x']) (blockPieces .nothing (Component.ofText text)) true] := by
  obtain ⟨head, body, hcomponents, -⟩ := h.exists_components
  have hflat : ∀ t, Component.token t ∈ Component.ofText text →
      t.kind.isFlat (some .curly) = true := by
    intro t ht
    obtain ⟨-, hcurly⟩ := h.kind_ne ht
    have hkind := (Component.stands_ofText text).isFlat_of_mem t ht
    cases hcase : t.kind with
    | closing bracket =>
        rw [hcase] at hcurly
        simp only [Token.Kind.isFlat, decide_eq_true_eq]
        rintro ⟨rfl⟩
        exact hcurly rfl
    | function | opening =>
        rw [hcase] at hkind
        cases hkind
    | _ => rfl
  have hinside : Stands (some .curly) [Bracket.curly.close] (Component.ofText text) := by
    have hstands := Component.stands_ofText text
    rw [hcomponents] at hstands hflat ⊢
    exact hstands.of_closed_last.enclose hflat
  have hall : Stands none [] [.token ⟨.ident, ['x']⟩,
      .block (.bracket .curly) (Component.ofText text) true] := by
    refine .token ⟨'x', [], rfl, ?_⟩ rfl (.closed ⟨'\x7b', [], rfl, rfl⟩ ?_ (.nil _ _))
    · rfl
    · exact hinside
  have hread := Component.ofText_sources hall
  have htext : Component.sources [.token ⟨.ident, ['x']⟩,
      .block (.bracket .curly) (Component.ofText text) true] =
        "x\x7b".toList ++ text ++ "\x7d".toList := by
    simp [Component.source, Component.source_ofText, Opening.text, Opening.brackets, Bracket.opener,
      Bracket.close]
  rw [htext] at hread
  rw [Piece.ofText, hread]
  rfl

/-- Items that say the same, wherever their declarations stand. -/
inductive Item.Alike : Item → Item → Prop where
  | declaration {d d' : Declaration} (name : d'.name = d.name) (value : d'.value = d.value)
      (important : d'.important = d.important) : Alike (.declaration d) (.declaration d')
  | rule (prelude : Text) {items items' : List Item} (inside : List.Forall₂ Alike items items') :
      Alike (.rule prelude items) (.rule prelude items')

mutual

theorem Piece.alike_items (place place' : Position) : (piece : Piece) →
    List.Forall₂ Item.Alike (piece.items place) (piece.items place')
  | .skipped _ => .nil
  | .declaration _ _ _ => .cons (.declaration rfl rfl rfl) .nil
  | .rule _ body _ => .cons (.rule _ (Piece.alike_itemsOf _ _ body)) .nil

/-- The items of pieces are alike wherever the pieces stand. -/
theorem Piece.alike_itemsOf (place place' : Position) : (pieces : List Piece) →
    List.Forall₂ Item.Alike (Piece.itemsOf place pieces) (Piece.itemsOf place' pieces)
  | [] => .nil
  | piece :: rest => by
      rw [Piece.itemsOf, Piece.itemsOf]
      exact List.rel_append (Piece.alike_items place place' piece) (Piece.alike_itemsOf _ _ rest)

end

/-- The items of a rule that is put into the block of another one. -/
theorem SpellsRule.rules_enclosed {text : Text} (h : SpellsRule text) : ∃ place,
    (Stylesheet.ofText ("x\x7b".toList ++ text ++ "\x7d".toList)).rules =
      [.rule "x".toList (Piece.itemsOf place (blockPieces .nothing (Component.ofText text)))] := by
  rw [Stylesheet.ofText, h.ofText_enclosed]
  exact ⟨_, rfl⟩

theorem SpellsRule.rules_of_startsDeclaration {text : Text} (h : SpellsRule text)
    (hstart : startsDeclaration (Component.ofText text) = true) : ∃ d,
    (Stylesheet.ofText ("x\x7b".toList ++ text ++ "\x7d".toList)).rules =
      [.rule "x".toList [.declaration d]] := by
  obtain ⟨place, hrules⟩ := h.rules_enclosed
  obtain ⟨d, hd⟩ := blockPieces_of_startsDeclaration hstart (fun t ht => (h.kind_ne ht).1) place
  exact ⟨d, by rw [hrules, hd]⟩

/-- A text that is read as a rule, put into the block of another rule, is there the same rule if it does
not start with a name and a colon; if it does it is a declaration of that block. -/
theorem Stylesheet.ofText_nested {text : Text} (h : SpellsRule text) {prelude : Text}
    {items : List Item} (hread : (Stylesheet.ofText text).rules = [.rule prelude items]) :
    let sheet := Stylesheet.ofText ("x\x7b".toList ++ text ++ "\x7d".toList)
    (startsDeclaration (Component.ofText text) = false →
      ∃ nested, sheet.rules = [.rule "x".toList [.rule prelude nested]] ∧
        List.Forall₂ Item.Alike items nested) ∧
    (startsDeclaration (Component.ofText text) = true →
      ∃ d, sheet.rules = [.rule "x".toList [.declaration d]]) := by
  intro sheet
  refine ⟨fun hstart => ?_, h.rules_of_startsDeclaration⟩
  obtain ⟨place, hrules⟩ := h.rules_enclosed
  obtain ⟨head, body, hcomponents, hparts⟩ := h.exists_components
  have hpieces : blockPieces .nothing (Component.ofText text) = Piece.ofText text := by
    have hselects : Pending.nothing.Selects (Component.ofText text) := ⟨h.start, hstart⟩
    have hitems : Piece.itemsOf Position.start (Piece.ofText text) ≠ [] := by
      rw [show Piece.itemsOf Position.start (Piece.ofText text) = _ from hread]
      exact List.cons_ne_nil _ _
    rw [Piece.ofText] at hitems ⊢
    rw [hcomponents] at hselects hitems ⊢
    exact blockPieces_eq_sheetPieces true hparts hselects hitems
  have halike : List.Forall₂ Item.Alike (Stylesheet.ofText text).rules
      (Piece.itemsOf place (Piece.ofText text)) := Piece.alike_itemsOf _ _ _
  rw [hread] at halike
  obtain ⟨item, others, hitem, hothers, hnested⟩ := List.forall₂_cons_left_iff.mp halike
  obtain rfl := List.forall₂_nil_left_iff.mp hothers
  cases hitem with
  | @rule _ _ nested inside =>
      exact ⟨nested, hrules.trans (by rw [hpieces, hnested]), inside⟩

/-- A rule with colons in its selector, in a bracket and behind another word, and with a rule in its
block. -/
theorem Stylesheet.ofText_nested_selector :
    let text := "/**/a [b=':'] c:d\x7be:f;&:g\x7bh:i!important\x7d\x7d".toList
    let prelude := "a [b=':'] c:d".toList
    let items : List Item := [.declaration ⟨"e".toList, "f".toList, false, 20, ⟨1, 19⟩⟩,
      .rule "&:g".toList [.declaration ⟨"h".toList, "i".toList, true, 28, ⟨1, 27⟩⟩]]
    SpellsRule text ∧ (Stylesheet.ofText text).rules = [.rule prelude items] ∧
      ∃ nested, (Stylesheet.ofText ("x\x7b".toList ++ text ++ "\x7d".toList)).rules =
        [.rule "x".toList [.rule prelude nested]] ∧ List.Forall₂ Item.Alike items nested := by
  intro text prelude items
  have hspells : SpellsRule text := ⟨by decide +kernel, by decide +kernel, by decide +kernel⟩
  have hread : (Stylesheet.ofText text).rules = [.rule prelude items] := by decide +kernel
  exact ⟨hspells, hread, (Stylesheet.ofText_nested hspells hread).1 (by decide +kernel)⟩

/-- A rule of a sheet that is no rule inside of another one: its selector starts with a name and a
colon. -/
theorem Stylesheet.ofText_nested_pseudoClass :
    let text := "a:hover\x7bb:c\x7d".toList
    SpellsRule text ∧
      (Stylesheet.ofText text).rules =
        [.rule "a:hover".toList [.declaration ⟨"b".toList, "c".toList, false, 10, ⟨1, 9⟩⟩]] ∧
      (Stylesheet.ofText ("x\x7b".toList ++ text ++ "\x7d".toList)).rules =
        [.rule "x".toList
          [.declaration ⟨"a".toList, "hover\x7bb:c\x7d".toList, false, 4, ⟨1, 3⟩⟩]] := by
  intro text
  have hspells : SpellsRule text := ⟨by decide +kernel, by decide +kernel, by decide +kernel⟩
  exact ⟨hspells, by decide +kernel, by decide +kernel⟩

end FluidSizing

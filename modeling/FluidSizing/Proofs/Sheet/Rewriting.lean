import FluidSizing.Proofs.Sheet.InPlace

/-! A sheet with its values resolved, cut into pieces again. The pieces of a block are followed component
value by component value: a raw value is resolved in place, the blocks of rules are rewritten inside, and
everything else stays (`exists_reread_block`). So the pieces of the new text are those of the old one
with their raw values resolved (`Piece.ofText_sources_resolvedAll`). -/

namespace FluidSizing

open Component (Stands Fits sources)
open Token (Near)
open RawValue (Steady)

mutual

def Piece.resolved (settings : Settings) : Piece → Piece
  | .skipped text => .skipped text
  | .declaration name between raw => .declaration name between (RawValue.resolved settings raw)
  | .rule prelude body closed => .rule prelude (Piece.resolvedAll settings body) closed

def Piece.resolvedAll (settings : Settings) : List Piece → List Piece
  | [] => []
  | piece :: rest => piece.resolved settings :: Piece.resolvedAll settings rest

end

mutual

def Piece.raws : Piece → List Text
  | .skipped _ => []
  | .declaration _ _ raw => [raw]
  | .rule _ body _ => Piece.allRaws body

def Piece.allRaws : List Piece → List Text
  | [] => []
  | piece :: rest => piece.raws ++ Piece.allRaws rest

end

namespace Piece

variable (settings : Settings) (ps qs : List Piece)

@[simp] theorem resolvedAll_append :
    resolvedAll settings (ps ++ qs) = resolvedAll settings ps ++ resolvedAll settings qs := by
  induction ps with
  | nil => simp [resolvedAll]
  | cons p ps ih => simp [resolvedAll, ih]

@[simp] theorem allRaws_append : allRaws (ps ++ qs) = allRaws ps ++ allRaws qs := by
  induction ps with
  | nil => simp [allRaws]
  | cons p ps ih => simp [allRaws, ih]

end Piece

namespace Pending

/-- Whether part of the value of a declaration has been read. -/
def isValue : Pending → Bool
  | value .. => true
  | _ => false

variable {pending : Pending} (settings : Settings)

theorem resolvedAll_atEnd (h : pending.isValue = false) :
    Piece.resolvedAll settings pending.atEnd = pending.atEnd := by
  cases pending with
  | value => cases h
  | _ => rfl

theorem isValue_extend (h : pending.isValue = false) (text : Text) :
    (pending.extend text).isValue = false := by
  cases pending with
  | value => cases h
  | _ => rfl

/-- Outside of a value a token of a block ends no declaration, and only a colon starts one. -/
theorem inBlock_cases (h : pending.isValue = false) (t : Token) :
    (Piece.resolvedAll settings (pending.inBlock t).1 = (pending.inBlock t).1 ∧
        (pending.inBlock t).2.isValue = false) ∨
      t.kind = .colon ∧ ∃ name between, pending.inBlock t = ([], .value name between []) := by
  cases pending with
  | value => cases h
  | named name between =>
      by_cases htrivia : t.kind.isTrivia = true
      · exact Or.inl (by simp [inBlock, htrivia, isValue, Piece.resolvedAll])
      · by_cases hcolon : t.kind = .colon
        · right
          refine ⟨hcolon, name, between ++ t.text, ?_⟩
          rw [inBlock, if_neg htrivia, if_pos hcolon]
        · left
          simp only [inBlock, if_neg htrivia, if_neg hcolon]
          split <;> exact ⟨rfl, rfl⟩
  | nothing =>
      left
      simp only [inBlock]
      split_ifs <;> exact ⟨rfl, rfl⟩
  | _ =>
      left
      simp only [inBlock]
      split_ifs <;> exact ⟨rfl, rfl⟩

theorem resolvedAll_atTop (first : Bool) (h : pending.isValue = false) (t : Token) :
    Piece.resolvedAll settings (pending.atTop first t).1 = (pending.atTop first t).1 ∧
      (pending.atTop first t).2.isValue = false := by
  cases pending with
  | value => cases h
  | selector => exact ⟨rfl, rfl⟩
  | nothing =>
      simp only [atTop]
      split_ifs <;> exact ⟨rfl, rfl⟩
  | _ =>
      simp only [atTop]
      split_ifs <;> exact ⟨rfl, rfl⟩

end Pending

theorem Piece.itemsOf_append (place : Position) (ps qs : List Piece) :
    Piece.itemsOf place (ps ++ qs) =
      Piece.itemsOf place ps ++ Piece.itemsOf (place.after (Piece.sources ps)) qs := by
  induction ps generalizing place with
  | nil => simp [Piece.itemsOf]
  | cons p ps ih => simp [Piece.itemsOf, Piece.after_eq, ih]

theorem blockPieces_token (pending : Pending) (t : Token) (rest : List Component) :
    blockPieces pending (.token t :: rest) =
      (pending.inBlock t).1 ++ blockPieces (pending.inBlock t).2 rest := by
  rw [blockPieces]

/-- A block in curly brackets is that of a rule where a prelude stands before it. -/
theorem blockPieces_rule {pending : Pending} {prelude : Prelude} (h : pending.prelude? = some prelude)
    (body : List Component) (closed : Bool) (rest : List Component) :
    blockPieces pending (.block (.bracket .curly) body closed :: rest) =
      .rule prelude (blockPieces .nothing body) closed :: blockPieces .nothing rest := by
  rw [blockPieces.eq_def]
  simp only [h, Component.pieces]

/-- Any other block is part of what is being read. -/
theorem blockPieces_extend {pending : Pending} {opening : Opening}
    (h : ¬ (opening = .bracket .curly ∧ ∃ prelude, pending.prelude? = some prelude))
    (body : List Component) (closed : Bool) (rest : List Component) :
    blockPieces pending (.block opening body closed :: rest) =
      blockPieces (pending.extend (Component.source (.block opening body closed))) rest := by
  rw [blockPieces.eq_def]
  dsimp only
  split
  · rename_i prelude hprelude
    exact absurd ⟨rfl, prelude, hprelude⟩ h
  · rfl

/-- A value goes on until a semicolon. -/
theorem blockPieces_value (name between raw : Text) {rs : List Component}
    (hrs : ∀ t, Component.token t ∈ rs → t.kind ≠ .semicolon) (rest : List Component) :
    blockPieces (.value name between raw) (rs ++ rest) =
      blockPieces (.value name between (raw ++ sources rs)) rest := by
  induction rs generalizing raw with
  | nil => simp
  | cons c rs ih =>
      have hrest : ∀ t, Component.token t ∈ rs → t.kind ≠ .semicolon := fun t ht =>
        hrs t (List.mem_cons_of_mem c ht)
      cases c with
      | token t =>
          have ht := hrs t List.mem_cons_self
          rw [List.cons_append, blockPieces, Pending.inBlock, if_neg ht]
          dsimp only
          rw [List.nil_append, ih _ hrest]
          simp [Component.source]
      | block opening body closed =>
          rw [List.cons_append, blockPieces.eq_def]
          simp only [Pending.prelude?, Pending.extend]
          rw [ih _ hrest]
          simp

theorem blockPieces_semicolon (name between raw : Text) (rest : List Component) :
    blockPieces (.value name between raw) (.token ⟨.semicolon, [';']⟩ :: rest) =
      .declaration name between raw :: .skipped [';'] :: blockPieces .nothing rest := by
  rw [blockPieces_token]
  rfl

/-- The component values of a block up to the first semicolon. -/
theorem exists_semicolon (cs : List Component) : ∃ rs rest, cs = rs ++ rest ∧
    (∀ t, Component.token t ∈ rs → t.kind ≠ .semicolon) ∧
      (rest = [] ∨ ∃ t behind, rest = .token t :: behind ∧ t.kind = .semicolon) := by
  induction cs with
  | nil => exact ⟨[], [], rfl, by simp, Or.inl rfl⟩
  | cons c cs ih =>
      obtain ⟨rs, rest, rfl, hrs, hrest⟩ := ih
      by_cases hc : ∃ t, c = .token t ∧ t.kind = .semicolon
      · obtain ⟨t, rfl, ht⟩ := hc
        exact ⟨[], .token t :: (rs ++ rest), rfl, by simp, Or.inr ⟨t, rs ++ rest, rfl, ht⟩⟩
      · refine ⟨c :: rs, rest, rfl, fun t ht => ?_, hrest⟩
        rcases List.mem_cons.mp ht with rfl | ht
        · exact fun hkind => hc ⟨t, rfl, hkind⟩
        · exact hrs t ht

theorem endsValue_eq_false {post : Text} {rs : List Component} (h : Stands (some .curly) post rs)
    (hrs : ∀ t, Component.token t ∈ rs → t.kind ≠ .semicolon) : ∀ c ∈ rs, c.endsValue = false := by
  intro c hc
  cases c with
  | block => rfl
  | token t =>
      have hflat := h.isFlat_of_mem t hc
      have hclose : t.kind ≠ .closing .curly := by
        intro hkind
        rw [hkind] at hflat
        cases hflat
      simp [Component.endsValue, hrs t hc, hclose]

theorem ne_semicolon {rs : List Component} (hrs : ∀ c ∈ rs, c.endsValue = false) :
    ∀ t, Component.token t ∈ rs → t.kind ≠ .semicolon := by
  intro t ht hkind
  have hends := hrs _ ht
  rw [Component.endsValue, hkind] at hends
  cases hends

section Block

variable (settings : Settings) {post : Text}

/-- Component values of a block, rewritten: they fit where they were, and their pieces are those before
with the values resolved. -/
def Reread (post : Text) (pending : Pending) (cs cs' : List Component) : Prop :=
  Fits (some .curly) post cs cs' ∧
    blockPieces pending cs' = Piece.resolvedAll settings (blockPieces pending cs)

/-- A value with what stands behind it in the block, rewritten. Behind the semicolon it is as at the start
of a block. -/
theorem exists_reread_value {cs : List Component} (h : Stands (some .curly) post cs)
    (hpost : Token.Fenced post) (name between : Text)
    (hraws : ∀ raw ∈ Piece.allRaws (blockPieces (.value name between []) cs), Steady raw)
    (hbehind : ∀ rest, (sources rest).length < (sources cs).length → Stands (some .curly) post rest →
      (∀ raw ∈ Piece.allRaws (blockPieces .nothing rest), Steady raw) →
      ∃ rest', Reread settings post .nothing rest rest') :
    ∃ cs', (∀ post', Near post post' → Stands (some .curly) post' cs') ∧
      blockPieces (.value name between []) cs' =
        Piece.resolvedAll settings (blockPieces (.value name between []) cs) := by
  obtain ⟨rs, rest, rfl, hrs, hrest⟩ := exists_semicolon cs
  obtain ⟨hvalue, hafter⟩ := Component.stands_append.mp h
  have hends := endsValue_eq_false hvalue hrs
  rw [blockPieces_value name between [] hrs, List.nil_append] at hraws ⊢
  rcases hrest with rfl | ⟨t, behind, rfl, ht⟩
  · rw [Component.sources_nil, List.nil_append] at hvalue
    have hraw : Steady (sources rs) := hraws _ (by simp [blockPieces, Pending.atEnd, Piece.allRaws, Piece.raws])
    obtain ⟨rs', hsources, hrs', hstands⟩ :=
      RawValue.inPlace_resolved settings (InPlace.of_stands hvalue hends) hpost hraw
    refine ⟨rs', hstands, ?_⟩
    have hpieces := blockPieces_value name between [] (ne_semicolon hrs') []
    rw [List.append_nil, List.nil_append, hsources] at hpieces
    rw [hpieces]
    rfl
  · cases hafter with
    | token stands flat hafter =>
        obtain ⟨kind, text⟩ := t
        obtain rfl : kind = .semicolon := ht
        obtain rfl : text = [';'] := stands.text_of_semicolon rfl
        have hsemicolon : ∀ rest : Text, Token.Fenced (';' :: rest) := fun _ =>
          Token.isFence_iff.mpr (by simp)
        rw [blockPieces_semicolon] at hraws ⊢
        simp only [Piece.allRaws, Piece.raws, List.nil_append, List.singleton_append,
          List.forall_mem_cons] at hraws
        obtain ⟨hraw, hraws⟩ := hraws
        obtain ⟨behind', hfits, hagain⟩ := hbehind behind (by simp [Component.source]; omega) hafter hraws
        rw [Component.sources_cons, Component.source, List.append_assoc] at hvalue
        obtain ⟨rs', hsources, hrs', hstands⟩ := RawValue.inPlace_resolved settings
          (InPlace.of_stands hvalue hends) (hsemicolon _) hraw
        refine ⟨rs' ++ .token ⟨.semicolon, [';']⟩ :: behind', fun post' hnear => ?_, ?_⟩
        · refine Component.stands_append.mpr
            ⟨hstands _ ?_, .token (Token.standsBefore_semicolon _) flat (hfits post' hnear).1⟩
          rw [Component.sources_cons, Component.source, List.append_assoc]
          exact .fenced [] (hsemicolon _) (hsemicolon _) (List.cons_ne_nil _ _)
        · rw [blockPieces_value name between [] (ne_semicolon hrs'), List.nil_append, hsources,
            blockPieces_semicolon, hagain]
          simp [Piece.resolvedAll, Piece.resolved]

/-- A colon is one token whatever follows, so a rewritten value fits behind it. -/
theorem fits_colon {t : Token} {rest rest' : List Component} (hcolon : t.kind = .colon)
    (stands : t.StandsBefore (sources rest ++ post)) (flat : t.kind.isFlat (some .curly) = true)
    (hstands : ∀ post', Near post post' → Stands (some .curly) post' rest') :
    Fits (some .curly) post (.token t :: rest) (.token t :: rest') := by
  have htext : t.text = [':'] := stands.text_of_separator? (by rw [hcolon]; rfl)
  refine fun post' hnear => ⟨.token ?_ flat (hstands post' hnear), ?_⟩
  · obtain ⟨kind, text⟩ := t
    obtain rfl : kind = .colon := hcolon
    obtain rfl : text = [':'] := htext
    exact ⟨':', [], rfl, rfl⟩
  · rw [Component.sources_cons, Component.sources_cons, Component.source, htext]
    exact .fenced [] (Token.isFence_iff.mpr (by simp)) (Token.isFence_iff.mpr (by simp))
      (List.cons_ne_nil _ _)

/-- A rule is rewritten in its block and behind it. -/
theorem blockPieces_rule_resolved {pending : Pending} {prelude : Prelude}
    (h : pending.prelude? = some prelude) {body body' rest rest' : List Component} (closed : Bool)
    (hbody : blockPieces .nothing body' = Piece.resolvedAll settings (blockPieces .nothing body))
    (hrest : blockPieces .nothing rest' = Piece.resolvedAll settings (blockPieces .nothing rest)) :
    blockPieces pending (.block (.bracket .curly) body' closed :: rest') =
      Piece.resolvedAll settings (blockPieces pending (.block (.bracket .curly) body closed :: rest)) := by
  rw [blockPieces_rule h, blockPieces_rule h, hbody, hrest]
  simp [Piece.resolvedAll, Piece.resolved]

/-- The component values of a block can be rewritten. -/
theorem exists_reread_block {cs : List Component} (h : Stands (some .curly) post cs)
    (hpost : Component.EndsBlock (some .curly) post) {pending : Pending}
    (hpending : pending.isValue = false)
    (hraws : ∀ raw ∈ Piece.allRaws (blockPieces pending cs), Steady raw) :
    ∃ cs', Reread settings post pending cs cs' := by
  have hfenced : Token.Fenced post := by
    rcases hpost with rfl | ⟨bracket, rest, -, rfl⟩
    · exact Token.fenced_nil
    · exact Token.fenced_close bracket rest
  induction hlen : (sources cs).length using Nat.strongRecOn generalizing post pending cs with
  | ind n ih =>
      cases h with
      | nil => exact ⟨[], (Stands.nil _ _).fits, (Pending.resolvedAll_atEnd settings hpending).symm⟩
      | @token _ _ t rest stands flat behind =>
          have hpos := List.length_pos_iff.mpr stands.text_ne_nil
          rw [Component.sources_cons, Component.source, List.length_append] at hlen
          rcases Pending.inBlock_cases settings hpending t with ⟨hpieces, hnext⟩ |
            ⟨hcolon, name, between, hstart⟩
          · rw [blockPieces_token] at hraws
            obtain ⟨rest', hfits, hagain⟩ := ih _ (by omega) behind hpost hnext
              (fun raw hraw => hraws raw (by simp [hraw])) hfenced rfl
            refine ⟨.token t :: rest', hfits.token stands flat, ?_⟩
            rw [blockPieces_token, blockPieces_token, hagain, Piece.resolvedAll_append, hpieces]
          · have hpieces : ∀ rest, blockPieces pending (.token t :: rest) =
                blockPieces (.value name between []) rest := by
              intro rest
              rw [blockPieces_token, hstart]
              rfl
            rw [hpieces] at hraws
            obtain ⟨rest', hstands, hagain⟩ := exists_reread_value settings behind hfenced name between
              hraws (fun others hshort hothers hraws => ih _ (by omega) hothers hpost rfl hraws hfenced rfl)
            refine ⟨.token t :: rest', fits_colon hcolon stands flat hstands, ?_⟩
            rw [hpieces, hpieces, hagain]
      | @closed _ _ opening body rest stands inside behind =>
          obtain ⟨hbodylen, hrestlen⟩ := Component.length_lt_block stands body true rest
          rw [hlen] at hbodylen hrestlen
          by_cases hrule : opening = .bracket .curly ∧ ∃ prelude, pending.prelude? = some prelude
          · obtain ⟨rfl, prelude, hprelude⟩ := hrule
            rw [blockPieces_rule hprelude] at hraws
            simp only [Piece.allRaws, Piece.raws, List.forall_mem_append] at hraws
            obtain ⟨body', hbody, hbodyagain⟩ := ih _ hbodylen inside
              (Or.inr ⟨.curly, _, rfl, rfl⟩) rfl hraws.1 (Token.fenced_close .curly _) rfl
            obtain ⟨rest', hrest, hagain⟩ := ih _ hrestlen behind hpost rfl hraws.2 hfenced rfl
            exact ⟨.block (.bracket .curly) body' true :: rest', .closed stands hbody hrest,
              blockPieces_rule_resolved settings hprelude true hbodyagain hagain⟩
          · rw [blockPieces_extend hrule] at hraws
            obtain ⟨rest', hrest, hagain⟩ := ih _ hrestlen behind hpost
              (Pending.isValue_extend hpending _) hraws hfenced rfl
            refine ⟨.block opening body true :: rest', .closed stands inside.fits hrest, ?_⟩
            rw [blockPieces_extend hrule, blockPieces_extend hrule, hagain]
      | @unclosed _ opening body stands inside =>
          obtain ⟨hbodylen, -⟩ := Component.length_lt_block stands body false []
          rw [hlen] at hbodylen
          by_cases hrule : opening = .bracket .curly ∧ ∃ prelude, pending.prelude? = some prelude
          · obtain ⟨rfl, prelude, hprelude⟩ := hrule
            rw [blockPieces_rule hprelude] at hraws
            simp only [Piece.allRaws, Piece.raws, List.forall_mem_append] at hraws
            obtain ⟨body', hbody, hbodyagain⟩ := ih _ hbodylen inside (Or.inl rfl) rfl hraws.1
              Token.fenced_nil rfl
            exact ⟨[.block (.bracket .curly) body' false], .unclosed stands hbody,
              blockPieces_rule_resolved settings hprelude false hbodyagain rfl⟩
          · refine ⟨[.block opening body false], .unclosed stands inside.fits, ?_⟩
            rw [blockPieces_extend hrule, blockPieces]
            exact (Pending.resolvedAll_atEnd settings (Pending.isValue_extend hpending _)).symm

/-- The block of a rule at the top can be rewritten. -/
theorem exists_reread_ruleAtTop {body : List Component} (h : Stands (some .curly) post body)
    (hpost : Component.EndsBlock (some .curly) post) (pending : Pending) (closed : Bool)
    (hraws : ∀ raw ∈ (pending.ruleAtTop body closed).raws, Steady raw) :
    ∃ body', Fits (some .curly) post body body' ∧
      pending.ruleAtTop body' closed = (pending.ruleAtTop body closed).resolved settings := by
  by_cases hrule : ∃ prelude, pending.prelude? = some prelude ∧ Pending.isBlank prelude = false
  · obtain ⟨prelude, hprelude, hblank⟩ := hrule
    have hpiece : ∀ body, pending.ruleAtTop body closed =
        .rule prelude (blockPieces .nothing body) closed := by
      intro body
      simp [Pending.ruleAtTop, hprelude, hblank, Component.pieces]
    rw [hpiece, Piece.raws] at hraws
    obtain ⟨body', hfits, hagain⟩ := exists_reread_block settings h hpost rfl hraws
    exact ⟨body', hfits, by rw [hpiece, hpiece, Piece.resolved, hagain]⟩
  · refine ⟨body, h.fits, ?_⟩
    have hpiece : ∃ text, pending.ruleAtTop body closed = .skipped text := by
      unfold Pending.ruleAtTop
      split
      · rename_i prelude hprelude
        rw [if_pos (by simpa using fun hblank => hrule ⟨prelude, hprelude, hblank⟩)]
        exact ⟨_, rfl⟩
      · exact ⟨_, rfl⟩
    obtain ⟨text, htext⟩ := hpiece
    rw [htext, Piece.resolved]

theorem sheetPieces_token (first : Bool) (pending : Pending) (t : Token) (rest : List Component) :
    sheetPieces first pending (.token t :: rest) =
      (pending.atTop first t).1 ++
        sheetPieces (first && (pending.atTop first t).2 = .nothing) (pending.atTop first t).2 rest := by
  rw [sheetPieces]

theorem sheetPieces_rule (first : Bool) (pending : Pending) (body : List Component) (closed : Bool)
    (rest : List Component) :
    sheetPieces first pending (.block (.bracket .curly) body closed :: rest) =
      pending.ruleAtTop body closed :: sheetPieces false .nothing rest := by
  rw [sheetPieces]

theorem sheetPieces_extend (first : Bool) (pending : Pending) {opening : Opening}
    (h : opening ≠ .bracket .curly) (body : List Component) (closed : Bool) (rest : List Component) :
    sheetPieces first pending (.block opening body closed :: rest) =
      sheetPieces false (pending.extend (Component.source (.block opening body closed))) rest := by
  rw [sheetPieces.eq_def]
  dsimp only
  split
  · exact absurd rfl h
  · rfl

/-- The component values of a sheet can be rewritten: they fit where they were, and their pieces are those
before with the values resolved. -/
theorem exists_reread_sheet {enclosing : Option Bracket} {cs : List Component}
    (h : Stands enclosing post cs) (first : Bool) {pending : Pending} (hpending : pending.isValue = false)
    (hraws : ∀ raw ∈ Piece.allRaws (sheetPieces first pending cs), Steady raw) :
    ∃ cs', Fits enclosing post cs cs' ∧
      sheetPieces first pending cs' = Piece.resolvedAll settings (sheetPieces first pending cs) := by
  induction h generalizing first pending with
  | nil => exact ⟨[], (Stands.nil _ _).fits, (Pending.resolvedAll_atEnd settings hpending).symm⟩
  | @token enclosing post t rest stands flat behind ih =>
      obtain ⟨hpieces, hnext⟩ := Pending.resolvedAll_atTop settings first hpending t
      rw [sheetPieces_token] at hraws
      rw [Piece.allRaws_append, List.forall_mem_append] at hraws
      obtain ⟨rest', hfits, hagain⟩ := ih _ hnext hraws.2
      refine ⟨.token t :: rest', hfits.token stands flat, ?_⟩
      rw [sheetPieces_token, sheetPieces_token, hagain, Piece.resolvedAll_append, hpieces]
  | @closed enclosing post opening body rest stands inside behind _ ih =>
      by_cases hrule : opening = .bracket .curly
      · subst hrule
        rw [sheetPieces_rule] at hraws
        simp only [Piece.allRaws, List.forall_mem_append] at hraws
        obtain ⟨body', hbody, hpiece⟩ := exists_reread_ruleAtTop settings inside
          (Or.inr ⟨.curly, _, rfl, rfl⟩) pending true hraws.1
        obtain ⟨rest', hrest, hagain⟩ := ih false rfl hraws.2
        refine ⟨.block (.bracket .curly) body' true :: rest', .closed stands hbody hrest, ?_⟩
        rw [sheetPieces_rule, sheetPieces_rule, hpiece, hagain, Piece.resolvedAll]
      · rw [sheetPieces_extend first pending hrule] at hraws
        obtain ⟨rest', hrest, hagain⟩ := ih false (Pending.isValue_extend hpending _) hraws
        refine ⟨.block opening body true :: rest', .closed stands inside.fits hrest, ?_⟩
        rw [sheetPieces_extend first pending hrule, sheetPieces_extend first pending hrule, hagain]
  | @unclosed enclosing opening body stands inside =>
      by_cases hrule : opening = .bracket .curly
      · subst hrule
        rw [sheetPieces_rule] at hraws
        simp only [Piece.allRaws, List.forall_mem_append] at hraws
        obtain ⟨body', hbody, hpiece⟩ :=
          exists_reread_ruleAtTop settings inside (Or.inl rfl) pending false hraws.1
        refine ⟨[.block (.bracket .curly) body' false], .unclosed stands hbody, ?_⟩
        rw [sheetPieces_rule, sheetPieces_rule, hpiece]
        rfl
      · refine ⟨[.block opening body false], .unclosed stands inside.fits, ?_⟩
        rw [sheetPieces_extend first pending hrule, sheetPieces]
        exact (Pending.resolvedAll_atEnd settings (Pending.isValue_extend hpending _)).symm

end Block

/-- The pieces of a sheet with its values resolved are the pieces of the sheet with theirs resolved. -/
theorem Piece.ofText_sources_resolvedAll (settings : Settings) {css : Text}
    (hraws : ∀ raw ∈ Piece.allRaws (Piece.ofText css), Steady raw) :
    Piece.ofText (Piece.sources (Piece.resolvedAll settings (Piece.ofText css))) =
      Piece.resolvedAll settings (Piece.ofText css) := by
  have hstart : Pending.nothing.isValue = false := rfl
  obtain ⟨cs, hfits, hagain⟩ :=
    exists_reread_sheet settings (Component.stands_ofText css) true hstart hraws
  have hsources : Piece.sources (Piece.resolvedAll settings (Piece.ofText css)) =
      Component.sources cs := by
    rw [Piece.ofText, ← hagain, sources_sheetPieces]
    rfl
  obtain ⟨hstands, -⟩ := hfits [] (.refl [])
  rw [hsources, Piece.ofText, Component.ofText_sources hstands, hagain]
  rfl

end FluidSizing

import FluidSizing.Proofs.Sheet.Structure

/-! Processing a processed sheet. Where the raw values of a sheet can be resolved in place, the processed
sheet has the same pieces with resolved values, and these resolve to themselves, so a second pass
changes nothing (`process_process`). A mark of importance inside of a call that is open there cuts the
value inside of the call; the closing parenthesis that its new text gets then shows the next pass what
the first one took for a part of the value (`process_process_ne`). -/

namespace FluidSizing

open RawValue (Steady)

mutual

theorem Piece.resolved_resolved (settings : Settings) : (piece : Piece) →
    (piece.resolved settings).resolved settings = piece.resolved settings
  | .skipped _ => rfl
  | .declaration name between raw => by
      rw [Piece.resolved, Piece.resolved, RawValue.resolved_resolved]
  | .rule prelude body closed => by
      rw [Piece.resolved, Piece.resolved, Piece.resolvedAll_resolvedAll settings body]

/-- Pieces with resolved values resolve to themselves. -/
theorem Piece.resolvedAll_resolvedAll (settings : Settings) : (pieces : List Piece) →
    Piece.resolvedAll settings (Piece.resolvedAll settings pieces) = Piece.resolvedAll settings pieces
  | [] => rfl
  | piece :: rest => by
      rw [Piece.resolvedAll, Piece.resolvedAll, Piece.resolved_resolved settings piece,
        Piece.resolvedAll_resolvedAll settings rest]

end

mutual

theorem Piece.exists_declaration_of_mem_raws {raw : Text} (place : Position) : (piece : Piece) →
    raw ∈ piece.raws → ∃ d ∈ Item.declarationsOf (piece.items place),
      d.value = RawValue.value raw ∧ d.important = RawValue.important raw
  | .skipped _, h => by cases h
  | .declaration name between raw', h => by
      obtain rfl := List.mem_singleton.mp h
      refine ⟨Declaration.ofSource place name between raw, ?_, rfl, rfl⟩
      simp [Piece.items, Item.declarationsOf, Item.declarations]
  | .rule prelude body _, h => by
      obtain ⟨d, hd, hraw⟩ := Piece.exists_declaration_of_mem_allRaws
        ((place.after prelude.source).next Bracket.curly.opener) body h
      refine ⟨d, ?_, hraw⟩
      simpa [Piece.items, Item.declarationsOf, Item.declarations] using hd

/-- Every raw value is that of a declaration. -/
theorem Piece.exists_declaration_of_mem_allRaws {raw : Text} (place : Position) :
    (pieces : List Piece) → raw ∈ Piece.allRaws pieces →
      ∃ d ∈ Item.declarationsOf (Piece.itemsOf place pieces),
        d.value = RawValue.value raw ∧ d.important = RawValue.important raw
  | [], h => by cases h
  | piece :: rest, h => by
      rw [Piece.allRaws] at h
      rw [Piece.itemsOf, Item.declarationsOf_append]
      rcases List.mem_append.mp h with h | h
      · obtain ⟨d, hd, hraw⟩ := Piece.exists_declaration_of_mem_raws place piece h
        exact ⟨d, List.mem_append_left _ hd, hraw⟩
      · obtain ⟨d, hd, hraw⟩ := Piece.exists_declaration_of_mem_allRaws (piece.after place) rest h
        exact ⟨d, List.mem_append_right _ hd, hraw⟩

end

/-- A second pass changes nothing, if no important declaration was cut inside of an open call and white
space is only that between tokens. -/
theorem process_process (settings : Settings) (css : Text)
    (hblank : ∀ c ∈ css, isWhiteSpace c = true → Token.isBlank c = true)
    (hclosed : ∀ d ∈ (Stylesheet.ofText css).declarations,
      d.important = true → Token.openCalls d.value = 0) :
    (process settings (process settings css).css).css = (process settings css).css := by
  have hraws : ∀ raw ∈ Piece.allRaws (Piece.ofText css), Steady raw := by
    intro raw hraw
    have hin := Piece.infix_of_mem_allRaws _ hraw
    rw [Piece.sources_ofText] at hin
    refine ⟨fun c hc => hblank c (hin.subset hc), fun himportant => ?_⟩
    obtain ⟨d, hd, hvalue, hflag⟩ :=
      Piece.exists_declaration_of_mem_allRaws Position.start (Piece.ofText css) hraw
    rw [← hvalue]
    refine hclosed d ?_ (by rw [hflag, himportant])
    rw [Stylesheet.declarations_ofText]
    exact hd
  rw [process_css settings (process settings css).css, Piece.ofText_process settings hraws,
    Piece.resolvedAll_resolvedAll, process_css]

/-- A mark behind a call that is closed is no hindrance. -/
theorem process_process_important :
    let css := "a{x:clamp(1px,@fluid(),2px)!important}".toList
    (∀ c ∈ css, isWhiteSpace c = true → Token.isBlank c = true) ∧
      (∀ d ∈ (Stylesheet.ofText css).declarations, d.important = true → Token.openCalls d.value = 0) ∧
      (process default (process default css).css).css = (process default css).css := by
  intro css
  have hblank : ∀ c ∈ css, isWhiteSpace c = true → Token.isBlank c = true :=
    isBlank_of_all (by decide +kernel)
  have hclosed : ∀ d ∈ (Stylesheet.ofText css).declarations,
      d.important = true → Token.openCalls d.value = 0 := by
    rw [Stylesheet.declarations_ofText]
    decide +kernel
  exact ⟨hblank, hclosed, process_process default css hblank hclosed⟩

/-- Here the first pass closes the group before the mark, and with it the first declaration ends before
the second one, which the next pass resolves. -/
theorem process_process_ne :
    let css := "a{x:(clamp(1px,@fluid(),2px)!important;y:clamp(1px,@fluid(),2px))}".toList
    (process default (process default css).css).css ≠ (process default css).css := by
  simp only [process_css]
  decide +kernel

end FluidSizing

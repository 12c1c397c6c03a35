import FluidSizing.Processing
import FluidSizing.Proofs.Sheet.LaidOut
import FluidSizing.Proofs.Text.Splice

/-! Every new value reaches its place. Replacing all of some spans of a text is defined only where the
spans are slices of the text, one behind the other; the splicing that runs leaves an edit out where it
does not fit. On spans that are laid out in the text the two agree and nothing is left out, whichever
of the values change (`LaidOut.splices`). -/

namespace FluidSizing

/-- The source from a cursor on with every edit made, if the spans are slices of it in this order. -/
def Text.replaceAll? (source : Text) (cursor : Nat) : List Edit → Option Text
  | [] => drop? source cursor
  | edit :: rest => do
      let untouched ← slice? source cursor edit.start
      let _ ← slice? source edit.start edit.stop
      let behind ← replaceAll? source edit.stop rest
      return untouched ++ edit.replacement ++ behind

/-- The replacement of a value by its resolution, by itself where that changes nothing. -/
def Declaration.edit (settings : Settings) (declaration : Declaration) : Edit :=
  ⟨declaration.start, declaration.stop,
    (declaration.resolution settings).valueOr declaration.value⟩

/-- Making all edits of laid out values and splicing only those that change a value come to the same,
and no edit is left out: `kept` is text behind the last change, which only splicing still has to copy. -/
theorem LaidOut.splices (settings : Settings) {source text : Text} {offset : Nat}
    {ds : List Declaration} (h : LaidOut offset text ds) (front kept : Text)
    (hsource : source = front ++ kept ++ text) (hoffset : offset = Text.byteSize (front ++ kept)) :
    ∃ out, Text.replaceAll? source offset (ds.map (Declaration.edit settings)) = some out ∧
      Text.spliceFrom source (Text.byteSize front) (ds.filterMap (Declaration.edit? settings)) =
        kept ++ out ∧
      Edit.made source (Text.byteSize front) (ds.filterMap (Declaration.edit? settings)) =
        ds.filterMap (Declaration.edit? settings) := by
  induction h generalizing front kept with
  | nil offset text =>
      subst hsource hoffset
      refine ⟨text, Text.drop?_append _ _, ?_, rfl⟩
      rw [List.filterMap_nil, Text.spliceFrom, List.append_assoc, Text.drop?_append]
      rfl
  | @cons offset gap rest d ds _ hstart _ ih =>
      have hstop : d.stop = Text.byteSize (front ++ kept ++ gap ++ d.value) := by
        rw [Declaration.stop, hstart, hoffset, Text.byteSize_append _ d.value,
          Text.byteSize_append _ gap]
      have hstart : d.start = Text.byteSize (front ++ kept ++ gap) := by
        rw [hstart, hoffset, Text.byteSize_append _ gap]
      have huntouched : Text.slice? source offset d.start = some gap := by
        rw [hsource, hoffset, hstart, ← List.append_assoc]
        exact Text.slice?_append _ _ _
      have hspan : Text.slice? source d.start d.stop = some d.value := by
        have htext : source = front ++ kept ++ gap ++ d.value ++ rest := by simp [hsource]
        rw [htext, hstart, hstop]
        exact Text.slice?_append _ _ _
      cases hvalue : (d.resolution settings).value with
      | none =>
          -- the value stays, and splicing goes on from the same cursor
          obtain ⟨out, hall, hsplice, hmade⟩ := ih front (kept ++ gap ++ d.value)
            (by simp [hsource]) (by simp [hstop])
          have hedit : d.edit? settings = none := by rw [Declaration.edit?, hvalue]; rfl
          have hsame : (d.resolution settings).valueOr d.value = d.value := by
            rw [Resolution.valueOr, hvalue]
            rfl
          refine ⟨gap ++ d.value ++ out, ?_, ?_, ?_⟩
          · simp [Text.replaceAll?, Declaration.edit, huntouched, hspan, hall, hsame]
          · rw [List.filterMap_cons_none hedit, hsplice]
            simp
          · rw [List.filterMap_cons_none hedit, hmade]
      | some value =>
          obtain ⟨out, hall, hsplice, hmade⟩ := ih (front ++ kept ++ gap ++ d.value) []
            (by simp [hsource]) (by simp [hstop])
          have hedit : d.edit? settings = some ⟨d.start, d.stop, value⟩ := by
            rw [Declaration.edit?, hvalue]
            rfl
          have hnew : (d.resolution settings).valueOr d.value = value := by
            rw [Resolution.valueOr, hvalue]
            rfl
          have hcopied : Text.slice? source (Text.byteSize front) d.start = some (kept ++ gap) := by
            have htext : source = front ++ (kept ++ gap) ++ (d.value ++ rest) := by simp [hsource]
            rw [htext, hstart, List.append_assoc front kept gap]
            exact Text.slice?_append _ _ _
          have happlies : Edit.applies source (Text.byteSize front) ⟨d.start, d.stop, value⟩ = true := by
            simp [Edit.applies, hcopied, hspan]
          refine ⟨gap ++ value ++ out, ?_, ?_, ?_⟩
          · simp [Text.replaceAll?, Declaration.edit, huntouched, hspan, hall, hnew]
          · rw [List.filterMap_cons_some hedit, Text.spliceFrom, if_pos happlies, hcopied]
            simp only [hstop, hsplice]
            simp
          · rw [List.filterMap_cons_some hedit, Edit.made, if_pos happlies]
            simp only [hstop, hmade]

theorem LaidOut.inOrder_filterMap {offset : Nat} {text : Text} {ds : List Declaration}
    (h : LaidOut offset text ds) (settings : Settings) :
    Edit.inOrder (ds.filterMap (Declaration.edit? settings)) =
      ds.filterMap (Declaration.edit? settings) := by
  refine List.mergeSort_of_pairwise (List.pairwise_filterMap.mpr (h.pairwise.imp ?_))
  intro d e hlt a ha b hb
  obtain ⟨_, _, rfl⟩ := Option.map_eq_some_iff.mp ha
  obtain ⟨_, _, rfl⟩ := Option.map_eq_some_iff.mp hb
  exact decide_eq_true (Nat.le_of_lt hlt)

/-- Processing replaces the value of every declaration, at its place, by what it resolves to, and copies
everything else: no edit is left out. The warnings are those of the declarations, in their order. -/
theorem process_replaces_every_value (settings : Settings) (css : Text) :
    let ds := (Stylesheet.ofText css).declarations
    Text.replaceAll? css 0 (ds.map (Declaration.edit settings)) = some (process settings css).css ∧
      Edit.made css 0 (Edit.inOrder (ds.filterMap (Declaration.edit? settings))) =
        ds.filterMap (Declaration.edit? settings) ∧
      (process settings css).warnings = ds.flatMap (Declaration.warnings settings) := by
  intro ds
  have h : LaidOut 0 css ds := laidOut_declarations css
  obtain ⟨out, hall, hsplice, hmade⟩ := h.splices settings [] [] rfl rfl
  have hcss : (process settings css).css = out := by
    rw [process, Text.splice, h.inOrder_filterMap]
    exact hsplice
  rw [hcss, h.inOrder_filterMap]
  exact ⟨hall, hmade, rfl⟩

end FluidSizing

import FluidSizing.Text
import Mathlib.Data.List.Basic
import Mathlib.Data.List.Pairwise

/-! Which edits are made, and what they make of the source. The declarative side scans the edits, stably
sorted by their starts, and accepts one if its span is a slice of the source that starts where the last
accepted one ends or later (`Edit.accepted`); the text is then the source with just the accepted spans
replaced (`Edit.Replaces`). The pass that runs asks something else, whether the text from its cursor on
can be copied, but it makes the same edits (`Edit.accepted_eq_made`, `Text.replaces_spliceFrom`).
`Text.splice_edits` puts this together. -/

namespace FluidSizing

namespace Text

variable {source front back middle : Text}

theorem slice?_append (front middle back : Text) :
    slice? (front ++ middle ++ back) (byteSize front) (byteSize (front ++ middle)) = some middle :=
  slice?_eq_some_iff.mpr ⟨front, back, rfl, rfl, (byteSize_append ..).symm⟩

theorem drop?_append (front back : Text) :
    drop? (front ++ back) (byteSize front) = some back := by
  rw [drop?, splitAt?_byteSize]
  rfl

/-- Of two parts at the start of a text the one with less bytes is at the start of the other. -/
theorem exists_gap {front' back' : Text} (h : front ++ back = front' ++ back')
    (hle : byteSize front ≤ byteSize front') : ∃ gap, front' = front ++ gap ∧ back = gap ++ back' := by
  rcases List.append_eq_append_iff.mp h with ⟨gap, hfront, hback⟩ | ⟨gap, hfront, hback⟩
  · exact ⟨gap, hfront, hback⟩
  · have hgap : gap = [] := by
      rw [hfront, byteSize_append] at hle
      exact byteSize_eq_zero_iff.mp (by omega)
    subst hgap
    exact ⟨[], by simpa using hfront.symm, by simpa using hback.symm⟩

end Text

namespace Edit

/-- The edits that splicing makes, of edits in the order of their starts. -/
def made (source : Text) (cursor : Nat) : List Edit → List Edit
  | [] => []
  | edit :: rest =>
      if edit.applies source cursor then edit :: made source edit.stop rest
      else made source cursor rest

/-- Edits in the order of their starts; edits with one start in the order in which they were given. -/
structure StableOrder (edits order : List Edit) : Prop where
  perm : order.Perm edits
  sorted : order.Pairwise fun edit other => edit.start ≤ other.start
  stable : ∀ start, order.filter (fun edit => edit.start = start) =
    edits.filter fun edit => edit.start = start

/-- The span of the edit is a slice of the source. -/
def Valid (source : Text) (edit : Edit) : Prop :=
  (Text.slice? source edit.start edit.stop).isSome = true

instance (source : Text) (edit : Edit) : Decidable (edit.Valid source) :=
  inferInstanceAs (Decidable (_ = true))

/-- Where the last of some edits ends, or the start of the text if there is none. -/
def lastStop (edits : List Edit) : Nat := (edits.getLast?.map stop).getD 0

/-- The edit can be made behind the edits that have been accepted. -/
def Accepted (source : Text) (accepted : List Edit) (edit : Edit) : Prop :=
  edit.Valid source ∧ lastStop accepted ≤ edit.start

instance (source : Text) (accepted : List Edit) (edit : Edit) :
    Decidable (edit.Accepted source accepted) :=
  inferInstanceAs (Decidable (_ ∧ _))

/-- The accepted edits, with one more to look at. -/
def accept (source : Text) (accepted : List Edit) (edit : Edit) : List Edit :=
  if edit.Accepted source accepted then accepted ++ [edit] else accepted

/-- The edits that are accepted when edits are looked at one after the other. -/
def accepted (source : Text) (edits : List Edit) : List Edit := edits.foldl (accept source) []

/-- A text that starts at an offset of the source, and the same text with the spans of edits replaced:
the spans follow one another in it, and everything around them is copied. -/
inductive Replaces : Nat → Text → List Edit → Text → Prop where
  | nil (offset : Nat) (text : Text) : Replaces offset text [] text
  | cons {offset : Nat} {gap old rest out : Text} {edit : Edit} {edits : List Edit}
      (start_eq : edit.start = offset + Text.byteSize gap)
      (stop_eq : edit.stop = edit.start + Text.byteSize old)
      (behind : Replaces edit.stop rest edits out) :
      Replaces offset (gap ++ (old ++ rest)) (edit :: edits) (gap ++ (edit.replacement ++ out))

/-- The text with this edit alone made, if its span is a slice of the text. -/
def replace? (text : Text) (edit : Edit) : Option Text := do
  let front ← Text.slice? text 0 edit.start
  let _ ← Text.slice? text edit.start edit.stop
  let back ← Text.drop? text edit.stop
  return front ++ edit.replacement ++ back

/-- The spans start at different places, and one ends where the other starts or before. -/
def Apart (edit other : Edit) : Prop :=
  edit.start ≠ other.start ∧ (edit.stop ≤ other.start ∨ other.stop ≤ edit.start)

instance : Std.Symm Apart := ⟨fun _ _ h => ⟨h.1.symm, h.2.symm⟩⟩

/-- Edits that can all be made: their spans are slices of the source and apart from each other. -/
structure Separate (source : Text) (edits : List Edit) : Prop where
  valid : ∀ edit ∈ edits, edit.Valid source
  apart : edits.Pairwise Apart

variable {source : Text} {edits : List Edit}

theorem stableOrder_inOrder (edits : List Edit) : StableOrder edits (inOrder edits) := by
  have htrans : ∀ a b c : Edit, decide (a.start ≤ b.start) = true → decide (b.start ≤ c.start) = true →
      decide (a.start ≤ c.start) = true := by
    simp only [decide_eq_true_eq]
    intro a b c hab hbc
    exact Nat.le_trans hab hbc
  have htotal : ∀ a b : Edit, (decide (a.start ≤ b.start) || decide (b.start ≤ a.start)) = true := by
    intro a b
    simpa using Nat.le_total a.start b.start
  have hperm : (inOrder edits).Perm edits := List.mergeSort_perm edits _
  refine ⟨hperm, (List.pairwise_mergeSort htrans htotal edits).imp of_decide_eq_true, ?_⟩
  intro start
  -- edits of one start are in order already, so sorting keeps them as a sublist
  have hsame : (edits.filter fun edit => edit.start = start).Pairwise
      fun a b => decide (a.start ≤ b.start) = true := by
    refine List.pairwise_iff_forall_sublist.mpr fun {a b} hsub => ?_
    have ha := (List.mem_filter.mp (hsub.subset List.mem_cons_self)).2
    have hb := (List.mem_filter.mp (hsub.subset (List.mem_cons_of_mem a List.mem_cons_self))).2
    simp only [decide_eq_true_eq] at ha hb ⊢
    omega
  have hsub := (List.sublist_mergeSort htrans htotal hsame List.filter_sublist).filter
    fun edit => decide (edit.start = start)
  rw [List.filter_filter] at hsub
  simp only [Bool.and_self] at hsub
  exact (hsub.eq_of_length (hperm.filter _).length_eq.symm).symm

theorem inOrder_of_pairwise (h : edits.Pairwise fun edit other => edit.start ≤ other.start) :
    inOrder edits = edits :=
  List.mergeSort_of_pairwise (h.imp decide_eq_true)

variable {front text : Text} {edit : Edit}

/-- A span that is a slice splits the source. -/
theorem Valid.exists_parts (h : edit.Valid source) : ∃ front old rest, source = front ++ old ++ rest ∧
    Text.byteSize front = edit.start ∧ Text.byteSize front + Text.byteSize old = edit.stop := by
  obtain ⟨old, hold⟩ := Option.isSome_iff_exists.mp h
  obtain ⟨front, rest, hparts⟩ := Text.slice?_eq_some_iff.mp hold
  exact ⟨front, old, rest, hparts⟩

/-- A span behind the cursor splits the text that is left. -/
theorem Valid.exists_split (h : edit.Valid (front ++ text)) (hle : Text.byteSize front ≤ edit.start) :
    ∃ gap old rest, text = gap ++ (old ++ rest) ∧
      edit.start = Text.byteSize front + Text.byteSize gap ∧
      edit.stop = edit.start + Text.byteSize old := by
  obtain ⟨front', old, rest, htext, hstart, hstop⟩ := h.exists_parts
  rw [List.append_assoc] at htext
  obtain ⟨gap, rfl, rfl⟩ := Text.exists_gap htext (by omega)
  rw [Text.byteSize_append] at hstart hstop
  exact ⟨gap, old, rest, rfl, hstart.symm, by omega⟩

theorem slice?_cursor {gap behind : Text} (h : text = gap ++ behind)
    (hstart : edit.start = Text.byteSize front + Text.byteSize gap) :
    Text.slice? (front ++ text) (Text.byteSize front) edit.start = some gap := by
  rw [hstart, ← Text.byteSize_append, h, ← List.append_assoc]
  exact Text.slice?_append front gap behind

/-- With everything before the cursor settled, an edit applies if its span is a slice that starts there or
later. -/
theorem applies_iff :
    edit.applies (front ++ text) (Text.byteSize front) = true ↔
      edit.Valid (front ++ text) ∧ Text.byteSize front ≤ edit.start := by
  rw [applies, Bool.and_eq_true, ← Valid]
  constructor
  · rintro ⟨hcopied, hvalid⟩
    obtain ⟨copied, hcopied⟩ := Option.isSome_iff_exists.mp hcopied
    obtain ⟨_, _, _, hfront, hstart⟩ := Text.slice?_eq_some_iff.mp hcopied
    exact ⟨hvalid, by omega⟩
  · rintro ⟨hvalid, hle⟩
    obtain ⟨gap, old, rest, htext, hstart, _⟩ := hvalid.exists_split hle
    rw [slice?_cursor htext hstart]
    exact ⟨rfl, hvalid⟩

@[simp] theorem lastStop_append (edits : List Edit) (edit : Edit) :
    lastStop (edits ++ [edit]) = edit.stop := by
  simp [lastStop]

/-- The pass makes the edits that are accepted: behind those accepted before, its cursor stands where the
last of them ends. -/
theorem foldl_accept_eq_made (source : Text) (edits before : List Edit)
    (hplace : ∃ front text, source = front ++ text ∧ Text.byteSize front = lastStop before) :
    edits.foldl (accept source) before = before ++ made source (lastStop before) edits := by
  induction edits generalizing before with
  | nil => simp [made]
  | cons edit rest ih =>
      have happlies : edit.applies source (lastStop before) = true ↔ edit.Accepted source before := by
        obtain ⟨front, text, rfl, hfront⟩ := hplace
        rw [Accepted, ← hfront]
        exact applies_iff
      rw [List.foldl_cons, accept, made]
      by_cases haccepted : edit.Accepted source before
      · have hplace' : ∃ front text, source = front ++ text ∧
            Text.byteSize front = lastStop (before ++ [edit]) := by
          obtain ⟨front, old, back, rfl, _, hstop⟩ := haccepted.1.exists_parts
          exact ⟨front ++ old, back, rfl, by rw [lastStop_append, ← hstop, Text.byteSize_append]⟩
        rw [if_pos haccepted, if_pos (happlies.mpr haccepted), ih _ hplace', lastStop_append,
          List.append_assoc, List.singleton_append]
      · rw [if_neg haccepted, if_neg (happlies.not.mpr haccepted), ih before hplace]

/-- The pass makes the accepted edits. -/
theorem accepted_eq_made (source : Text) (edits : List Edit) :
    accepted source edits = made source 0 edits :=
  foldl_accept_eq_made source edits [] ⟨[], source, rfl, rfl⟩

/-- An edit that is not accepted has no influence on those behind it. -/
theorem accepted_of_not_accepted {before : List Edit} (h : ¬ edit.Accepted source (accepted source before))
    (after : List Edit) :
    accepted source (before ++ edit :: after) = accepted source (before ++ after) := by
  rw [accepted, accepted, List.foldl_append, List.foldl_append, List.foldl_cons, ← accepted, accept,
    if_neg h]

/-- A span that is not accepted starts before the end of one that is. -/
theorem Valid.exists_overlap (h : edit.Valid source) {accepted : List Edit}
    (hnot : ¬ edit.Accepted source accepted) : ∃ other ∈ accepted, edit.start < other.stop := by
  have hlt : edit.start < lastStop accepted := by
    by_contra hle
    exact hnot ⟨h, by omega⟩
  rw [lastStop] at hlt
  cases hlast : accepted.getLast? with
  | none =>
      rw [hlast] at hlt
      cases hlt
  | some other =>
      rw [hlast] at hlt
      exact ⟨other, List.mem_of_getLast? hlast, hlt⟩

/-- Slices each of which starts behind the one before are all accepted. -/
theorem foldl_accept_of_pairwise (hvalid : ∀ edit ∈ edits, edit.Valid source)
    (hedits : edits.Pairwise fun edit other => edit.stop ≤ other.start) (before : List Edit)
    (hbefore : ∀ edit ∈ edits, lastStop before ≤ edit.start) :
    edits.foldl (accept source) before = before ++ edits := by
  induction edits generalizing before with
  | nil => simp
  | cons edit rest ih =>
      obtain ⟨hedit, hrest⟩ := List.forall_mem_cons.mp hvalid
      obtain ⟨hbehind, hpairs⟩ := List.pairwise_cons.mp hedits
      have haccepted : edit.Accepted source before := ⟨hedit, hbefore edit List.mem_cons_self⟩
      rw [List.foldl_cons, accept, if_pos haccepted, ih hrest hpairs _ (by simpa using hbehind),
        List.append_assoc, List.singleton_append]

namespace Separate

variable (h : Separate source edits)
include h

theorem perm {others : List Edit} (hperm : others.Perm edits) : Separate source others where
  valid := fun edit hedit => h.valid edit (hperm.mem_iff.mp hedit)
  apart := (hperm.pairwise_iff fun h => symm h).mpr h.apart

/-- In the order of their starts each of the spans starts behind the one before. -/
theorem pairwise_stop (hsorted : edits.Pairwise fun edit other => edit.start ≤ other.start) :
    edits.Pairwise fun edit other => edit.stop ≤ other.start := by
  have hstop : ∀ edit ∈ edits, edit.start ≤ edit.stop := by
    intro edit hedit
    obtain ⟨_, _, _, _, hstart, hstop⟩ := (h.valid edit hedit).exists_parts
    omega
  refine (h.apart.and hsorted).imp_of_mem ?_
  rintro edit other _ hother ⟨⟨hne, hends⟩, hle⟩
  have := hstop other hother
  omega

/-- All of the edits are accepted in the order of their starts. -/
theorem accepted_inOrder : accepted source (inOrder edits) = inOrder edits := by
  have horder := stableOrder_inOrder edits
  have hseparate := h.perm horder.perm
  exact foldl_accept_of_pairwise hseparate.valid (hseparate.pairwise_stop horder.sorted) []
    fun _ _ => Nat.zero_le _

/-- The order in which the edits are given does not matter. -/
theorem inOrder_perm {others : List Edit} (hperm : others.Perm edits) : inOrder others = inOrder edits := by
  have horder := stableOrder_inOrder edits
  have hothers := stableOrder_inOrder others
  refine List.Perm.eq_of_pairwise ?_ hothers.sorted horder.sorted
    (hothers.perm.trans (hperm.trans horder.perm.symm))
  intro edit other hedit hother hle hge
  by_contra hne
  have hmem : edit ∈ edits ∧ other ∈ edits :=
    ⟨hperm.mem_iff.mp (hothers.perm.mem_iff.mp hedit), horder.perm.mem_iff.mp hother⟩
  have hstarts := h.apart.forall hmem.1 hmem.2 hne
  exact hstarts.1 (Nat.le_antisymm hle hge)

end Separate

/-- An edit made alone. -/
theorem replace?_eq {front old : Text} (hstart : edit.start = Text.byteSize front)
    (hstop : edit.stop = Text.byteSize (front ++ old)) (back : Text) :
    replace? (front ++ old ++ back) edit = some (front ++ edit.replacement ++ back) := by
  have hfront : Text.slice? (front ++ old ++ back) 0 edit.start = some front := by
    rw [hstart, List.append_assoc]
    exact Text.slice?_append [] front (old ++ back)
  have hold : Text.slice? (front ++ old ++ back) edit.start edit.stop = some old := by
    rw [hstart, hstop]
    exact Text.slice?_append front old back
  have hback : Text.drop? (front ++ old ++ back) edit.stop = some back := by
    rw [hstop]
    exact Text.drop?_append (front ++ old) back
  rw [replace?, hfront, hold, hback]
  rfl

/-- Making the edits one at a time, the last one first, does the same to a text. -/
theorem Replaces.foldrM_eq {offset : Nat} {out : Text} (h : Replaces offset text edits out)
    {front : Text} (hoffset : offset = Text.byteSize front) :
    edits.foldrM (fun edit text => edit.replace? text) (front ++ text) = some (front ++ out) := by
  induction h generalizing front with
  | nil => rfl
  | @cons offset gap old rest out edit edits hstart hstop _ ih =>
      rw [hoffset, ← Text.byteSize_append] at hstart
      rw [hstart, ← Text.byteSize_append] at hstop
      have htext : front ++ (gap ++ (old ++ rest)) = front ++ gap ++ old ++ rest := by simp
      rw [List.foldrM_cons, htext, ih hstop, Option.bind_eq_bind, Option.bind_some,
        replace?_eq hstart hstop]
      simp

end Edit

namespace Text

open Edit (Replaces)

/-- The pass replaces the spans of the edits it makes and copies the rest. -/
theorem replaces_spliceFrom (edits : List Edit) (front text : Text) :
    Replaces (byteSize front) text (Edit.made (front ++ text) (byteSize front) edits)
      (spliceFrom (front ++ text) (byteSize front) edits) := by
  induction edits generalizing front text with
  | nil =>
      rw [Edit.made, spliceFrom, drop?_append]
      exact .nil _ _
  | cons edit rest ih =>
      rw [Edit.made, spliceFrom]
      by_cases happlies : edit.applies (front ++ text) (byteSize front) = true
      · obtain ⟨hvalid, hle⟩ := Edit.applies_iff.mp happlies
        obtain ⟨gap, old, behind, rfl, hstart, hstop⟩ := hvalid.exists_split hle
        have hbehind : front ++ (gap ++ (old ++ behind)) = front ++ gap ++ old ++ behind := by simp
        have hsize : edit.stop = byteSize (front ++ gap ++ old) := by
          rw [byteSize_append, byteSize_append, ← hstart, hstop]
        have hrest := ih (front ++ gap ++ old) behind
        rw [← hsize, ← hbehind] at hrest
        rw [if_pos happlies, if_pos happlies, Edit.slice?_cursor rfl hstart, Option.getD_some,
          List.append_assoc]
        exact .cons hstart hstop hrest
      · rw [if_neg happlies, if_neg happlies]
        exact ih front text

/-- Leaving out what the pass leaves out changes nothing. -/
theorem spliceFrom_made (source : Text) (edits : List Edit) (cursor : Nat) :
    spliceFrom source cursor (Edit.made source cursor edits) = spliceFrom source cursor edits := by
  induction edits generalizing cursor with
  | nil => rfl
  | cons edit rest ih =>
      rw [Edit.made, spliceFrom]
      by_cases happlies : edit.applies source cursor = true
      · rw [if_pos happlies, if_pos happlies, spliceFrom, if_pos happlies, ih]
      · rw [if_neg happlies, if_neg happlies, ih]

/-- An edit that is not accepted can be left out. -/
theorem splice_of_not_accepted {source : Text} {edits before after : List Edit} {edit : Edit}
    (hsplit : Edit.inOrder edits = before ++ edit :: after)
    (hnot : ¬ edit.Accepted source (Edit.accepted source before)) :
    Edit.accepted source (before ++ after) = Edit.accepted source (Edit.inOrder edits) ∧
      splice source (before ++ after) = splice source edits := by
  have haccepted : Edit.accepted source (before ++ after) =
      Edit.accepted source (Edit.inOrder edits) := by
    rw [hsplit, Edit.accepted_of_not_accepted hnot]
  have hsorted : (before ++ after).Pairwise fun edit other => edit.start ≤ other.start := by
    refine (Edit.stableOrder_inOrder edits).sorted.sublist ?_
    rw [hsplit]
    exact (List.Sublist.refl before).append (List.sublist_cons_self edit after)
  refine ⟨haccepted, ?_⟩
  calc splice source (before ++ after)
      = spliceFrom source 0 (before ++ after) := by
        rw [splice, Edit.inOrder_of_pairwise hsorted]
    _ = spliceFrom source 0 (Edit.made source 0 (Edit.inOrder edits)) := by
        rw [← spliceFrom_made, ← Edit.accepted_eq_made, haccepted, Edit.accepted_eq_made]
    _ = splice source edits := spliceFrom_made source (Edit.inOrder edits) 0

/-- Splicing makes the edits that are accepted in the order of their starts, and no others: their spans are
replaced and everything else is copied, so an edit that is left out has no influence on the others, and if
its span is a slice it meets an accepted one. Edits whose spans are apart are all made, whatever their
order, as if they were made one at a time from the last to the first. -/
theorem splice_edits (source : Text) (edits : List Edit) :
    let order := Edit.inOrder edits
    Edit.StableOrder edits order ∧
    Replaces 0 source (Edit.accepted source order) (splice source edits) ∧
    (∀ before edit after, order = before ++ edit :: after →
      ¬ edit.Accepted source (Edit.accepted source before) →
        Edit.accepted source (before ++ after) = Edit.accepted source order ∧
        splice source (before ++ after) = splice source edits ∧
        (edit.Valid source → ∃ other ∈ Edit.accepted source before, edit.start < other.stop)) ∧
    (Edit.Separate source edits →
      Edit.accepted source order = order ∧
      (∀ others, others.Perm edits → splice source others = splice source edits) ∧
      order.foldrM (fun edit text => edit.replace? text) source = some (splice source edits)) := by
  intro order
  have horder : Edit.StableOrder edits order := Edit.stableOrder_inOrder edits
  have hreplaces : Replaces 0 source (Edit.accepted source order) (splice source edits) := by
    rw [Edit.accepted_eq_made]
    exact replaces_spliceFrom order [] source
  refine ⟨horder, hreplaces, ?_, ?_⟩
  · intro before edit after hsplit hnot
    obtain ⟨haccepted, hsplice⟩ := splice_of_not_accepted hsplit hnot
    exact ⟨haccepted, hsplice, fun hvalid => hvalid.exists_overlap hnot⟩
  · intro hseparate
    have haccepted : Edit.accepted source order = order := hseparate.accepted_inOrder
    refine ⟨haccepted, ?_, ?_⟩
    · intro others hperm
      rw [splice, splice, hseparate.inOrder_perm hperm]
    · rw [haccepted] at hreplaces
      exact hreplaces.foldrM_eq byteSize_nil.symm

/-- Of two spans that meet the one that starts first is replaced, whichever edit is given first. -/
example : splice "abcdef".toList [⟨2, 5, ['Y']⟩, ⟨1, 4, ['X']⟩] = "aXef".toList := by cbv

end Text

end FluidSizing

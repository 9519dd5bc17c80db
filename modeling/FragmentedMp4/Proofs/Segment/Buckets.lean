import FragmentedMp4.Proofs.Results
import FragmentedMp4.Segment.Buckets

/-!
# Which bucket an index box is in

Whatever has been done to a segment, each of its buckets holds the index boxes that were added
while there were that many fragments, since index boxes were last removed. A list of buckets
beside the fragments, with the place of the first index box remembered, gives the same buckets
and the same first index box, and is never asked for a bucket that it does not have.
-/
namespace FragmentedMp4

namespace Segment

/-- The index boxes that are added by some changes and not removed by a later one, each with
the number of fragments that there are when it is added. -/
def Edit.added : (fragments : Nat) → List Edit → List (Nat × SegmentIndex)
  | _, [] => []
  | fragments, .addIndex index :: edits =>
    if edits.any (· matches .clearIndexes) then added fragments edits
    else (fragments, index) :: added fragments edits
  | fragments, .addFragment _ :: edits => added (fragments + 1) edits
  | fragments, _ :: edits => added fragments edits

def Edit.fragmentCount (edits : List Edit) : Nat :=
  edits.countP (· matches .addFragment _)

/-- The buckets, with one behind the last fragment even if no index boxes wait. -/
def openBuckets (segment : Segment) : List (List SegmentIndex) :=
  segment.parts.map (·.indexes) ++ [segment.trailing]

theorem length_indexBuckets (segment : Segment) :
    segment.indexBuckets.length =
      if segment.trailing.isEmpty then segment.parts.length else segment.parts.length + 1 := by
  unfold indexBuckets
  by_cases hempty : segment.trailing.isEmpty
  · rw [if_pos hempty, if_pos hempty, List.append_nil, List.length_map]
  · rw [if_neg hempty, if_neg hempty, List.length_append, List.length_map,
      List.length_singleton]

theorem indexBuckets_eq (segment : Segment) :
    segment.indexBuckets =
      if segment.trailing.isEmpty then segment.parts.map (·.indexes) else segment.openBuckets := by
  unfold indexBuckets openBuckets
  by_cases hempty : segment.trailing.isEmpty
  · rw [if_pos hempty, if_pos hempty, List.append_nil]
  · rw [if_neg hempty, if_neg hempty]

theorem openBuckets_cases (segment : Segment) :
    segment.openBuckets = segment.indexBuckets ∨
      segment.openBuckets = segment.indexBuckets ++ [[]] := by
  rw [indexBuckets_eq]
  by_cases hempty : segment.trailing.isEmpty
  · rw [if_pos hempty, openBuckets, List.isEmpty_iff.1 hempty]
    exact .inr rfl
  · rw [if_neg hempty]
    exact .inl rfl

theorem flatten_openBuckets (segment : Segment) :
    segment.openBuckets.flatten = segment.indexBuckets.flatten := by
  rcases segment.openBuckets_cases with h | h <;> simp [h]

theorem indexesBefore_eq (segment : Segment) (i : Nat) :
    segment.indexesBefore i = (segment.openBuckets[i]?).getD [] := by
  unfold indexesBefore
  rcases segment.openBuckets_cases with h | h
  · rw [h]
  · rw [h, List.getElem?_append]
    split_ifs with hi
    · rfl
    · rw [List.getElem?_eq_none (Nat.not_lt.1 hi)]
      rcases hlast : [([] : List SegmentIndex)][i - segment.indexBuckets.length]? with _ | bucket
      · rfl
      · rw [List.mem_singleton.1 (List.mem_of_getElem? hlast)]
        rfl

/-- The index boxes among those that were added when there was a number of fragments. -/
def bucketOf (log : List (Nat × SegmentIndex)) (fragments : Nat) : List SegmentIndex :=
  (log.filter (·.1 == fragments)).map (·.2)

namespace Edit

theorem added_concat (edits : List Edit) (last : Edit) (fragments : Nat) :
    added fragments (edits ++ [last]) =
      match last with
      | .addIndex index => added fragments edits ++ [(fragments + fragmentCount edits, index)]
      | .clearIndexes => []
      | _ => added fragments edits := by
  induction edits generalizing fragments with
  | nil => cases last <;> simp [added, fragmentCount]
  | cons first edits ih =>
    have hcount : fragmentCount (first :: edits) =
        fragmentCount edits + if first matches .addFragment _ then 1 else 0 := by
      unfold fragmentCount
      rw [List.countP_cons]
    rw [List.cons_append, hcount]
    cases first with
    | addFragment fragment =>
      simp only [added, ih]
      cases last <;> simp [Nat.add_assoc, Nat.add_comm 1]
    | addIndex index =>
      simp only [added, ih, List.any_append]
      cases last with
      | clearIndexes => simp
      | _ => simp <;> split_ifs <;> simp
    | clearIndexes => cases last <;> simp [added, ih]
    | write => cases last <;> simp [added, ih]
    | changeLast change => cases last <;> simp [added, ih]

end Edit

theorem bucketOf_append (log more : List (Nat × SegmentIndex)) (fragments : Nat) :
    bucketOf (log ++ more) fragments = bucketOf log fragments ++ bucketOf more fragments := by
  unfold bucketOf
  rw [List.filter_append, List.map_append]

theorem bucketOf_of_lt {log : List (Nat × SegmentIndex)} {fragments : Nat}
    (h : ∀ entry ∈ log, entry.1 < fragments) : bucketOf log fragments = [] := by
  unfold bucketOf
  rw [List.map_eq_nil_iff, List.filter_eq_nil_iff]
  intro entry hmem
  have hlt := h entry hmem
  simp only [beq_iff_eq]
  omega

/-- The index boxes of a segment are those of a log, in its order and in the buckets that it
says. -/
structure Logs (segment : Segment) (log : List (Nat × SegmentIndex)) : Prop where
  indexes : segment.parts.map (·.indexes) =
    (List.range segment.parts.length).map (bucketOf log)
  trailing : segment.trailing = bucketOf log segment.parts.length
  bounded : ∀ entry ∈ log, entry.1 ≤ segment.parts.length
  order : (segment.parts.map (·.indexes)).flatten ++ segment.trailing = log.map (·.2)

namespace Logs

variable {segment next : Segment} {log : List (Nat × SegmentIndex)}

theorem ofType (segmentType : Option SegmentType) : (ofType segmentType).Logs [] :=
  ⟨rfl, rfl, by simp, rfl⟩

theorem of_sameIndexes (h : segment.Logs log)
    (hparts : next.parts.map (·.indexes) = segment.parts.map (·.indexes))
    (htrailing : next.trailing = segment.trailing) : next.Logs log := by
  have hlength : next.parts.length = segment.parts.length := by
    simpa using congrArg List.length hparts
  refine ⟨?_, ?_, ?_, ?_⟩
  · rw [hparts, hlength, h.indexes]
  · rw [htrailing, hlength, h.trailing]
  · rw [hlength]
    exact h.bounded
  · rw [hparts, htrailing, h.order]

theorem addIndex (h : segment.Logs log) (index : SegmentIndex) :
    (segment.addIndex index).Logs (log ++ [(segment.parts.length, index)]) := by
  refine ⟨?_, ?_, ?_, ?_⟩
  · refine h.indexes.trans (List.map_congr_left ?_)
    intro i hmem
    have hne : segment.parts.length ≠ i := Nat.ne_of_gt (List.mem_range.1 hmem)
    have hother : bucketOf [(segment.parts.length, index)] i = [] := by
      simp [bucketOf, hne]
    rw [bucketOf_append, hother, List.append_nil]
  · have hlast : bucketOf [(segment.parts.length, index)] segment.parts.length = [index] := by
      simp [bucketOf]
    change segment.trailing ++ [index] = bucketOf _ segment.parts.length
    rw [bucketOf_append, hlast, h.trailing]
  · exact List.forall_mem_append.2 ⟨h.bounded, List.forall_mem_singleton.2 le_rfl⟩
  · change (segment.parts.map (·.indexes)).flatten ++ (segment.trailing ++ [index]) = _
    rw [← List.append_assoc, h.order, List.map_append]
    rfl

theorem addFragment (h : segment.Logs log) (fragment : Fragment) :
    (segment.addFragment fragment).Logs log := by
  have hlength : (segment.addFragment fragment).parts.length = segment.parts.length + 1 := by
    simp [Segment.addFragment]
  have hindexes : (segment.addFragment fragment).parts.map (·.indexes) =
      segment.parts.map (·.indexes) ++ [segment.trailing] := by
    simp [Segment.addFragment]
  refine ⟨?_, ?_, ?_, ?_⟩
  · rw [hindexes, hlength, List.range_succ, List.map_append, h.indexes, h.trailing]
    rfl
  · rw [hlength, bucketOf_of_lt fun entry hmem => Nat.lt_succ_of_le (h.bounded entry hmem)]
    rfl
  · intro entry hmem
    rw [hlength]
    exact (h.bounded entry hmem).trans (Nat.le_succ _)
  · rw [hindexes, List.flatten_append, List.flatten_singleton, ← h.order]
    exact List.append_nil _

theorem clearIndexes (segment : Segment) : segment.clearIndexes.Logs [] := by
  have hlength : segment.clearIndexes.parts.length = segment.parts.length := by
    simp [Segment.clearIndexes]
  have hindexes : segment.clearIndexes.parts.map (·.indexes) =
      List.replicate segment.parts.length [] := by
    simp [Segment.clearIndexes, Function.comp_def]
  refine ⟨?_, rfl, by simp, ?_⟩
  · have hempty : bucketOf [] = fun _ => [] := rfl
    rw [hindexes, hlength, hempty, List.map_const', List.length_range]
  · rw [hindexes, List.flatten_replicate_nil]
    rfl

theorem changeLastFragment (h : segment.Logs log) (change : Fragment → Fragment) :
    (segment.changeLastFragment change).Logs log := by
  unfold Segment.changeLastFragment
  cases hlast : segment.parts.getLast? with
  | none => exact h
  | some part =>
    refine h.of_sameIndexes ?_ rfl
    obtain ⟨front, hfront⟩ := List.getLast?_eq_some_iff.1 hlast
    rw [hfront]
    simp

/-- What a change does to the index boxes, in a log of them. -/
theorem edit (h : segment.Logs log) (last : Edit) :
    (segment.edit last).Logs (match last with
      | .addIndex index => log ++ [(segment.parts.length, index)]
      | .clearIndexes => []
      | _ => log) := by
  cases last with
  | addIndex index => exact h.addIndex index
  | addFragment fragment => exact h.addFragment fragment
  | clearIndexes => exact clearIndexes segment
  | write =>
    refine h.of_sameIndexes ?_ rfl
    simp [Segment.edit, prepared, Function.comp_def]
  | changeLast change => exact h.changeLastFragment change

theorem openBuckets_eq (h : segment.Logs log) :
    segment.openBuckets = (List.range (segment.parts.length + 1)).map (bucketOf log) := by
  rw [openBuckets, h.indexes, h.trailing, List.range_succ, List.map_append, List.map_singleton]

/-- Every bucket holds the index boxes that the log has for it. -/
theorem indexesBefore_eq (h : segment.Logs log) (i : Nat) :
    segment.indexesBefore i = bucketOf log i := by
  rw [Segment.indexesBefore_eq, h.openBuckets_eq, List.getElem?_map]
  by_cases hi : i < segment.parts.length + 1
  · rw [List.getElem?_range hi]
    rfl
  · rw [List.getElem?_eq_none (by simpa using hi)]
    refine (bucketOf_of_lt ?_).symm
    intro entry hmem
    have hle := h.bounded entry hmem
    omega

theorem flatten_indexBuckets (h : segment.Logs log) :
    segment.indexBuckets.flatten = log.map (·.2) := by
  rw [← h.order, ← flatten_openBuckets, openBuckets, List.flatten_append, List.flatten_singleton]

end Logs

theorem length_parts_edit (segment : Segment) (last : Edit) :
    (segment.edit last).parts.length =
      segment.parts.length + if last matches .addFragment _ then 1 else 0 := by
  cases last with
  | addIndex index => rfl
  | addFragment fragment => simp [edit, addFragment]
  | clearIndexes => simp [edit, clearIndexes]
  | write => simp [edit, prepared]
  | changeLast change =>
    simp only [edit, changeLastFragment]
    cases hlast : segment.parts.getLast? with
    | none => rfl
    | some part =>
      obtain ⟨front, hfront⟩ := List.getLast?_eq_some_iff.1 hlast
      simp [hfront]

/-- After any changes to a segment without fragments, its index boxes are those that were added
and not removed. -/
theorem logs_editAll (segmentType : Option SegmentType) (edits : List Edit) :
    ((ofType segmentType).editAll edits).parts.length = Edit.fragmentCount edits ∧
      ((ofType segmentType).editAll edits).Logs (Edit.added 0 edits) := by
  induction edits using List.reverseRecOn with
  | nil => exact ⟨rfl, Logs.ofType segmentType⟩
  | append_singleton edits last ih =>
    obtain ⟨hcount, hlogs⟩ := ih
    have hlast := hlogs.edit last
    rw [Edit.added_concat, Nat.zero_add, ← hcount]
    unfold editAll at *
    rw [List.foldl_append, List.foldl_cons, List.foldl_nil]
    refine ⟨?_, ?_⟩
    · rw [length_parts_edit, hcount, Edit.fragmentCount, Edit.fragmentCount, List.countP_append,
        List.countP_singleton]
    · cases last <;> exact hlast

end Segment

namespace BucketedSegment

theorem bind_findIdx? (buckets : List (List SegmentIndex)) :
    ((buckets.findIdx? (!·.isEmpty)).bind fun place => buckets[place]?.bind List.head?) =
      buckets.flatten.head? := by
  induction buckets with
  | nil => rfl
  | cons bucket buckets ih =>
    cases bucket with
    | nil =>
      rw [List.flatten_cons, List.nil_append, ← ih, List.findIdx?_cons]
      cases buckets.findIdx? (!·.isEmpty) <;> simp
    | cons index indexes => simp [List.findIdx?_cons]

theorem head?_flatten (buckets : List (List SegmentIndex)) :
    buckets.flatten.head? = (buckets.find? (!·.isEmpty)).bind List.head? := by
  induction buckets with
  | nil => rfl
  | cons bucket buckets ih =>
    cases bucket with
    | nil => exact ih
    | cons index indexes => rfl

/-- The segment keeps the index boxes of another one in buckets. -/
structure Represents (bucketed : BucketedSegment) (segment : Segment) : Prop where
  segmentType : bucketed.segmentType = segment.segmentType
  fragments : bucketed.fragments = segment.fragments
  buckets : bucketed.buckets = segment.indexBuckets
  firstBucket? : bucketed.firstBucket? = segment.indexBuckets.findIdx? (!·.isEmpty)
  layout : bucketed.layout = segment.layout
  startPosition : bucketed.startPosition = segment.startPosition

namespace Represents

variable {bucketed : BucketedSegment} {segment : Segment}

theorem ofType (segmentType : Option SegmentType) :
    (ofType segmentType).Represents (.ofType segmentType) :=
  ⟨rfl, rfl, rfl, rfl, rfl, rfl⟩

theorem length_fragments (h : bucketed.Represents segment) :
    bucketed.fragments.length = segment.parts.length := by
  rw [h.fragments, Segment.fragments, List.length_map]

theorem firstIndex?_eq (h : bucketed.Represents segment) :
    bucketed.firstIndex? = segment.firstIndex? := by
  unfold firstIndex?
  rw [h.firstBucket?, h.buckets, bind_findIdx?]
  rfl

theorem buckets_withOpenBucket (h : bucketed.Represents segment) :
    bucketed.withOpenBucket.buckets = segment.openBuckets := by
  have hlength := segment.length_indexBuckets
  unfold withOpenBucket
  rw [h.length_fragments, h.buckets]
  by_cases hempty : segment.trailing.isEmpty
  · rw [if_pos hempty] at hlength
    rw [if_pos hlength.le, Segment.indexBuckets_eq, if_pos hempty, Segment.openBuckets,
      List.isEmpty_iff.1 hempty]
  · rw [if_neg hempty] at hlength
    rw [if_neg (by omega), h.buckets, Segment.indexBuckets_eq, if_neg hempty]

theorem modify_last {α : Type} (front : List α) (last : α) (change : α → α) :
    (front ++ [last]).modify front.length change = front ++ [change last] := by
  induction front with
  | nil => rfl
  | cons first front ih => simpa using ih

theorem pushInto_last (buckets : List (List SegmentIndex)) (last : List SegmentIndex)
    (index : SegmentIndex) :
    pushInto buckets.length index (buckets ++ [last]) = some (buckets ++ [last ++ [index]]) := by
  unfold pushInto
  rw [if_pos (by simp), modify_last]

theorem findIdx?_push (buckets : List (List SegmentIndex)) (waiting : List SegmentIndex)
    (index : SegmentIndex) :
    (buckets ++ [waiting ++ [index]]).findIdx? (!·.isEmpty) =
      ((buckets ++ [waiting]).findIdx? (!·.isEmpty) <|> some buckets.length) := by
  rw [List.findIdx?_append, List.findIdx?_append]
  cases buckets.findIdx? (!·.isEmpty) with
  | some place => rfl
  | none => cases waiting <;> simp [List.findIdx?_cons]

theorem findIdx?_indexBuckets (segment : Segment) :
    segment.indexBuckets.findIdx? (!·.isEmpty) =
      segment.openBuckets.findIdx? (!·.isEmpty) := by
  rcases segment.openBuckets_cases with h | h
  · rw [h]
  · rw [h, List.findIdx?_append]
    simp [List.findIdx?_cons]

theorem addIndex (h : bucketed.Represents segment) (index : SegmentIndex) :
    ∃ next, bucketed.addIndex index = some next ∧ next.Represents (segment.addIndex index) := by
  have hbuckets : (segment.addIndex index).indexBuckets =
      segment.parts.map (·.indexes) ++ [segment.trailing ++ [index]] := by
    rw [Segment.indexBuckets_eq, if_neg (by simp [Segment.addIndex])]
    rfl
  have hpush := pushInto_last (segment.parts.map (·.indexes)) segment.trailing index
  rw [List.length_map] at hpush
  refine ⟨{ bucketed with
      buckets := segment.parts.map (·.indexes) ++ [segment.trailing ++ [index]]
      firstBucket? := bucketed.firstBucket? <|> some segment.parts.length },
    ?_, h.segmentType, h.fragments, hbuckets.symm, ?_, h.layout, h.startPosition⟩
  · unfold BucketedSegment.addIndex
    simp only [h.buckets_withOpenBucket, Segment.openBuckets, h.length_fragments, hpush,
      Option.map_some]
  · have hfirst := h.firstBucket?
    rw [findIdx?_indexBuckets, Segment.openBuckets] at hfirst
    rw [hbuckets, findIdx?_push, List.length_map, ← hfirst]

theorem addFragment (h : bucketed.Represents segment) (fragment : Fragment) :
    (bucketed.addFragment fragment).Represents (segment.addFragment fragment) := by
  have hbuckets : (segment.addFragment fragment).indexBuckets = segment.openBuckets := by
    simp [Segment.indexBuckets, Segment.addFragment, Segment.openBuckets]
  have hfragments : (segment.addFragment fragment).fragments =
      segment.fragments ++ [fragment] := by
    simp [Segment.fragments, Segment.addFragment]
  have hother : bucketed.withOpenBucket.segmentType = bucketed.segmentType ∧
      bucketed.withOpenBucket.firstBucket? = bucketed.firstBucket? ∧
      bucketed.withOpenBucket.layout = bucketed.layout ∧
      bucketed.withOpenBucket.startPosition = bucketed.startPosition := by
    unfold withOpenBucket
    split_ifs <;> exact ⟨rfl, rfl, rfl, rfl⟩
  obtain ⟨htype, hfirst, hlayout, hposition⟩ := hother
  refine ⟨htype.trans h.segmentType, ?_, ?_, ?_, hlayout.trans h.layout,
    hposition.trans h.startPosition⟩
  · rw [hfragments, ← h.fragments]
    rfl
  · rw [hbuckets, ← h.buckets_withOpenBucket]
    rfl
  · rw [hbuckets, ← findIdx?_indexBuckets, ← h.firstBucket?]
    exact hfirst

theorem clearIndexes (h : bucketed.Represents segment) :
    bucketed.clearIndexes.Represents segment.clearIndexes := by
  have hbuckets : segment.clearIndexes.indexBuckets =
      List.replicate segment.parts.length [] := by
    simp [Segment.indexBuckets, Segment.clearIndexes, Function.comp_def]
  refine ⟨h.segmentType, ?_, ?_, ?_, h.layout, h.startPosition⟩
  · rw [show bucketed.clearIndexes.fragments = bucketed.fragments from rfl, h.fragments]
    simp [Segment.fragments, Segment.clearIndexes]
  · rw [hbuckets, ← h.length_fragments]
    rfl
  · rw [hbuckets]
    refine (List.findIdx?_eq_none_iff.2 ?_).symm
    intro bucket hmem
    rw [(List.mem_replicate.1 hmem).2]
    rfl

theorem withParts (h : bucketed.Represents segment) {parts : List SegmentPart}
    (hindexes : parts.map (·.indexes) = segment.parts.map (·.indexes)) :
    Represents { bucketed with fragments := parts.map (·.fragment) } { segment with parts } := by
  have hbuckets : Segment.indexBuckets { segment with parts } = segment.indexBuckets := by
    unfold Segment.indexBuckets
    rw [hindexes]
  exact ⟨h.segmentType, rfl, h.buckets.trans hbuckets.symm, h.firstBucket?.trans (by rw [hbuckets]),
    h.layout, h.startPosition⟩

theorem prepared (h : bucketed.Represents segment) :
    bucketed.prepared.Represents segment.prepared := by
  have hfragments : bucketed.prepared.fragments =
      segment.prepared.parts.map (·.fragment) := by
    simp [BucketedSegment.prepared, Segment.prepared, h.fragments, h.layout, Segment.fragments]
  have hindexes : segment.prepared.parts.map (·.indexes) = segment.parts.map (·.indexes) := by
    simp [Segment.prepared]
  have hnext := h.withParts hindexes
  rw [← hfragments] at hnext
  exact hnext

theorem changeLastFragment (h : bucketed.Represents segment) (change : Fragment → Fragment) :
    (bucketed.changeLastFragment change).Represents (segment.changeLastFragment change) := by
  have hfragments := h.fragments
  unfold BucketedSegment.changeLastFragment Segment.changeLastFragment
  cases hlast : segment.parts.getLast? with
  | none =>
    rw [List.getLast?_eq_none_iff] at hlast
    rw [hfragments, Segment.fragments, hlast]
    exact ⟨h.segmentType, by rw [Segment.fragments, hlast]; rfl, h.buckets, h.firstBucket?,
      h.layout, h.startPosition⟩
  | some part =>
    obtain ⟨front, hfront⟩ := List.getLast?_eq_some_iff.1 hlast
    have hchanged : bucketed.fragments.modify (bucketed.fragments.length - 1) change =
        (front ++ [{ part with fragment := change part.fragment }]).map SegmentPart.fragment := by
      have hlength : (front.map (·.fragment) ++ [part.fragment]).length - 1 =
          (front.map (·.fragment)).length := by
        simp
      rw [hfragments, Segment.fragments, hfront, List.map_append, List.map_singleton, hlength,
        modify_last, List.map_append, List.map_singleton]
    rw [hchanged, hfront, List.dropLast_concat]
    apply h.withParts
    rw [hfront]
    simp

/-- Each change comes through, and leaves what the same change leaves of the segment. -/
theorem edit (h : bucketed.Represents segment) (change : Segment.Edit) :
    ∃ next, bucketed.edit change = some next ∧ next.Represents (segment.edit change) := by
  cases change with
  | addIndex index => exact h.addIndex index
  | addFragment fragment => exact ⟨_, rfl, h.addFragment fragment⟩
  | clearIndexes => exact ⟨_, rfl, h.clearIndexes⟩
  | write => exact ⟨_, rfl, h.prepared⟩
  | changeLast change => exact ⟨_, rfl, h.changeLastFragment change⟩

theorem editAll (h : bucketed.Represents segment) (edits : List Segment.Edit) :
    ∃ next, bucketed.editAll edits = some next ∧ next.Represents (segment.editAll edits) := by
  induction edits generalizing bucketed segment with
  | nil => exact ⟨bucketed, rfl, h⟩
  | cons change edits ih =>
    obtain ⟨middle, hmiddle, hrepresents⟩ := h.edit change
    obtain ⟨next, hnext, hlast⟩ := ih hrepresents
    refine ⟨next, ?_, hlast⟩
    unfold BucketedSegment.editAll at *
    rw [List.foldlM_cons, hmiddle]
    exact hnext

end Represents
end BucketedSegment

namespace Segment

/-- Whatever is done to a segment that begins without fragments, it has a bucket for each
fragment and at most one more. Each bucket holds, in order, the index boxes that were added
while there were that many fragments and that no later change removed; those in the bucket
behind the last fragment wait, and the first index box is the one that was added first, which
the first bucket with index boxes begins with. When the buckets are kept as a list beside the
fragments, no change asks for a bucket that there is not. -/
theorem buckets_hold_added (segmentType : Option SegmentType) (edits : List Edit) :
    let segment := (ofType segmentType).editAll edits
    let added := Edit.added 0 edits
    (∃ bucketed, (BucketedSegment.ofType segmentType).editAll edits = some bucketed ∧
      bucketed.fragments = segment.fragments ∧ bucketed.buckets = segment.indexBuckets ∧
      bucketed.firstIndex? = segment.firstIndex?) ∧
    segment.fragments.length = Edit.fragmentCount edits ∧
    (segment.indexBuckets.length = segment.fragments.length ∨
      segment.indexBuckets.length = segment.fragments.length + 1) ∧
    (∀ i, segment.indexesBefore i = bucketOf added i) ∧
    segment.indexBuckets.flatten = added.map (·.2) ∧
    segment.trailing = segment.indexesBefore segment.fragments.length ∧
    segment.firstIndex? = (added.map (·.2)).head? ∧
    (segment.firstIndex? = none ↔ added = []) ∧
    segment.firstIndex? = (segment.indexBuckets.find? (!·.isEmpty)).bind List.head? := by
  intro segment added
  obtain ⟨hcount, hlogs⟩ := logs_editAll segmentType edits
  obtain ⟨bucketed, hrun, hsame⟩ := (BucketedSegment.Represents.ofType segmentType).editAll edits
  have hfragments : segment.fragments.length = segment.parts.length := List.length_map _
  have hfirst : segment.firstIndex? = (added.map (·.2)).head? := by
    rw [firstIndex?, hlogs.flatten_indexBuckets]
  refine ⟨⟨bucketed, hrun, hsame.fragments, hsame.buckets, hsame.firstIndex?_eq⟩,
    hfragments.trans hcount, ?_, hlogs.indexesBefore_eq, hlogs.flatten_indexBuckets, ?_, hfirst,
    ?_, ?_⟩
  · rw [length_indexBuckets, hfragments]
    split_ifs <;> simp
  · rw [hfragments, hlogs.indexesBefore_eq]
    exact hlogs.trailing
  · rw [hfirst, List.head?_eq_none_iff, List.map_eq_nil_iff]
  · exact BucketedSegment.head?_flatten segment.indexBuckets

end Segment
end FragmentedMp4

import FragmentedMp4.Proofs.Fragment.Building

/-!
# Many samples for many tracks

A fragment is offered samples for its tracks in any order. Each track keeps those that were
taken, in order, and gives them back; the payload is the data of all of them in the order in
which they came, since no track takes a sample once a later one has data.
-/
namespace FragmentedMp4

namespace Sample

def untimed (sample : Sample) : Sample :=
  { sample with decodeTime := 0 }

def startTime (samples : List Sample) : UInt64 :=
  (samples.head?.map (·.decodeTime)).getD 0

/-- The samples that were read are those that were given. The first one keeps its decode time,
and each later one is decoded when the one before it ends. -/
structure ReadBack (given read : List Sample) : Prop where
  content : read.map untimed = given.map untimed
  first : startTime read = startTime given
  later : read.IsChain fun sample next =>
    next.decodeTime.toNat = sample.decodeTime.toNat + sample.duration.toNat

theorem retimed_of_fits {time : UInt64} {samples : List Sample}
    (h : time.toNat + (samples.map (·.duration.toNat)).sum < UInt64.size) :
    ∃ read, retimed time samples = .ok read ∧ read.map untimed = samples.map untimed ∧
      (∀ sample ∈ read.head?, sample.decodeTime = time) ∧
      read.IsChain fun sample next =>
        next.decodeTime.toNat = sample.decodeTime.toNat + sample.duration.toNat := by
  induction samples generalizing time with
  | nil => exact ⟨[], rfl, rfl, by simp, .nil⟩
  | cons sample samples ih =>
    rw [List.map_cons, List.sum_cons] at h
    have hnext : addUnsigned time.toNat sample.duration.toNat =
        .ok (.ofNat (time.toNat + sample.duration.toNat)) := if_pos (by omega)
    have htime := addUnsigned_eq_ok hnext
    obtain ⟨read, hread, hcontent, hfirst, hlater⟩ := ih (by rw [htime]; omega)
    refine ⟨{ sample with decodeTime := time } :: read, ?_, ?_, ?_, ?_⟩
    · rw [retimed, hnext]
      simp only [bind, Except.bind, hread]
      rfl
    · rw [List.map_cons, List.map_cons, hcontent]
      rfl
    · simp
    · refine List.isChain_cons.2 ⟨?_, hlater⟩
      intro next hnext
      rw [hfirst next hnext, htime]

theorem readBack_retimed {samples : List Sample}
    (h : (startTime samples).toNat + (samples.map (·.duration.toNat)).sum < UInt64.size) :
    ∃ read, retimed (startTime samples) samples = .ok read ∧ ReadBack samples read := by
  obtain ⟨read, hread, hcontent, hfirst, hlater⟩ := retimed_of_fits h
  refine ⟨read, hread, hcontent, ?_, hlater⟩
  cases read with
  | nil =>
    have hnil : samples = [] := by simpa using hcontent.symm
    rw [hnil]
  | cons sample read => exact hfirst sample rfl

end Sample

namespace Fragment.Stores

variable {fragment : Fragment} {sequenceNumber : UInt32} {before after : List TrackSamples}
  {stored : TrackSamples}

/-- A track gives back the samples that it holds, whatever the defaults. -/
theorem trackSamples_eq (h : fragment.Stores sequenceNumber (before ++ stored :: after))
    (hbefore : ∀ other ∈ before, other.trackId ≠ stored.trackId) (trex : Option TrackExtends) :
    fragment.trackSamples stored.trackId trex =
      Sample.retimed (Sample.startTime stored.samples) stored.samples := by
  obtain ⟨boxes, hlaid, hshape⟩ := h.shape
  obtain ⟨front, dataOffset, back, hboxes, hfront, hoffset, -⟩ := hlaid.split
  have htracks : fragment.moof.tracks = front ++ stored.trackFragment dataOffset :: back := by
    rw [← hboxes, hshape]
    rfl
  have htrack : fragment.moof.track? stored.trackId = some (stored.trackFragment dataOffset) := by
    unfold MovieFragment.track?
    rw [htracks, List.find?_append, List.find?_eq_none.2, Option.none_or]
    · exact List.find?_cons_of_pos (by simp)
    · simpa using hfront.trackId_ne hbefore
  unfold trackSamples findTrack
  rw [htrack]
  generalize (fragment.trackId? == some stored.trackId) = isFirst
  change fragment.readTrack isFirst (stored.trackFragment dataOffset) trex = _
  obtain ⟨trackId, samples⟩ := stored
  cases samples with
  | nil =>
    refine (readTrack_of_readable fragment _ TrackSamples.baseDataOffset_trackFragment
      (.inr TrackSamples.baseIsMoof_trackFragment) trex).trans ?_
    rfl
  | cons first rest =>
    have hpayload : fragment.mdat.payload = before.flatMap (·.data) ++
        ((first :: rest).flatMap (·.data) ++ after.flatMap (·.data)) := by
      rw [h.payload, List.flatMap_append, List.flatMap_cons]
      rfl
    exact readTrack_ofSamples (by rw [hoffset (by simp)]; push_cast; rfl) hpayload
      (h.sizes ⟨trackId, first :: rest⟩ (by simp)) isFirst trex

end Fragment.Stores

/-- A sample on its way to a track. -/
structure Addition where
  trackId : UInt32
  sample : Sample
deriving DecidableEq

/-- A fragment that is being built, and what it has taken so far. -/
structure Building where
  fragment : Fragment
  taken : List Addition

namespace Building

def ofTracks (sequenceNumber : UInt32) (trackIds : List UInt32) : Building :=
  ⟨.ofTracks sequenceNumber trackIds, []⟩

def attempt (building : Building) (addition : Addition) : Attempt :=
  building.fragment.appendToTrack addition.sample addition.trackId

def add (building : Building) (addition : Addition) : Building where
  fragment := (building.attempt addition).fragment
  taken :=
    if (building.attempt addition).error.isNone then building.taken ++ [addition]
    else building.taken

def addAll (building : Building) (additions : List Addition) : Building :=
  additions.foldl add building

end Building

namespace Addition

def samplesOf (trackId : UInt32) (additions : List Addition) : List Sample :=
  (additions.filter (·.trackId == trackId)).map (·.sample)

/-- Why a fragment does not take a sample: it does not have the track, a later track has data,
or the sample has another size than its data. -/
def Refused (trackIds : List UInt32) (taken : List Addition) (addition : Addition) : Prop :=
  addition.trackId ∉ trackIds ∨
    (∃ other ∈ taken, trackIds.idxOf addition.trackId < trackIds.idxOf other.trackId) ∨
    addition.sample.data.length ≠ addition.sample.size.toNat

/-- The samples of each track, where only the first of equal tracks has any. -/
def ledger : List UInt32 → List Addition → List TrackSamples
  | [], _ => []
  | trackId :: trackIds, additions =>
    ⟨trackId, samplesOf trackId additions⟩ ::
      ledger trackIds (additions.filter (·.trackId != trackId))

theorem ledger_nil (trackIds : List UInt32) :
    ledger trackIds [] = trackIds.map fun trackId => ⟨trackId, []⟩ := by
  induction trackIds with
  | nil => rfl
  | cons trackId trackIds ih =>
    rw [ledger, List.filter_nil, ih]
    rfl

theorem map_trackId_ledger (trackIds : List UInt32) (additions : List Addition) :
    (ledger trackIds additions).map (·.trackId) = trackIds := by
  induction trackIds generalizing additions with
  | nil => rfl
  | cons trackId trackIds ih => rw [ledger, List.map_cons, ih]

theorem samplesOf_filter {trackId other : UInt32} (h : trackId ≠ other)
    (additions : List Addition) :
    samplesOf trackId (additions.filter (·.trackId != other)) = samplesOf trackId additions := by
  unfold samplesOf
  rw [List.filter_filter]
  congr 1
  apply List.filter_congr
  intro addition _
  by_cases hid : addition.trackId = trackId <;> simp [hid, h]

theorem mem_of_filter {trackId : UInt32} {trackIds : List UInt32} {additions : List Addition}
    (h : ∀ addition ∈ additions, addition.trackId ∈ trackId :: trackIds) :
    ∀ addition ∈ additions.filter (·.trackId != trackId), addition.trackId ∈ trackIds := by
  intro addition hmem
  obtain ⟨hmem, hne⟩ := List.mem_filter.1 hmem
  rcases List.mem_cons.1 (h addition hmem) with heq | hlater
  · exact absurd heq (by simpa using hne)
  · exact hlater

theorem exists_samples_ledger {trackIds : List UInt32} {additions : List Addition}
    (h : ∀ addition ∈ additions, addition.trackId ∈ trackIds) :
    (∃ stored ∈ ledger trackIds additions, stored.samples ≠ []) ↔
      ∃ addition, addition ∈ additions := by
  constructor
  · rintro ⟨stored, hmem, hne⟩
    by_contra hnone
    have hnil : additions = [] := List.eq_nil_iff_forall_not_mem.2 (not_exists.1 hnone)
    rw [hnil, ledger_nil] at hmem
    obtain ⟨trackId, -, rfl⟩ := List.mem_map.1 hmem
    exact hne rfl
  · rintro ⟨addition, hmem⟩
    induction trackIds generalizing additions with
    | nil => exact absurd (h addition hmem) (by simp)
    | cons trackId trackIds ih =>
      rw [ledger, List.exists_mem_cons_iff]
      by_cases hid : addition.trackId = trackId
      · refine .inl (List.ne_nil_of_mem (a := addition.sample) ?_)
        exact List.mem_map.2 ⟨addition, List.mem_filter.2 ⟨hmem, by simpa using hid⟩, rfl⟩
      · exact .inr (ih (mem_of_filter h) (List.mem_filter.2 ⟨hmem, by simpa using hid⟩))

theorem idxOf_self_lt {first other : UInt32} {trackIds : List UInt32} :
    (first :: trackIds).idxOf first < (first :: trackIds).idxOf other ↔ other ≠ first := by
  by_cases heq : first = other
  · simp [heq]
  · rw [List.idxOf_cons_self, List.idxOf_cons_ne _ heq]
    exact iff_of_true (Nat.succ_pos _) (Ne.symm heq)

theorem idxOf_cons_lt {first trackId other : UInt32} {trackIds : List UInt32}
    (h : first ≠ trackId) :
    (first :: trackIds).idxOf trackId < (first :: trackIds).idxOf other ↔
      other ≠ first ∧ trackIds.idxOf trackId < trackIds.idxOf other := by
  by_cases heq : first = other
  · simp [heq]
  · rw [List.idxOf_cons_ne _ h, List.idxOf_cons_ne _ heq, Nat.succ_lt_succ_iff]
    exact (and_iff_right (Ne.symm heq)).symm

/-- The place of a track in the ledger. What stands in front of it and behind it does not
depend on its own samples. -/
theorem ledger_split {trackId : UInt32} {trackIds : List UInt32} {additions : List Addition}
    (hid : trackId ∈ trackIds) (h : ∀ addition ∈ additions, addition.trackId ∈ trackIds) :
    ∃ before after,
      ledger trackIds additions = before ++ ⟨trackId, samplesOf trackId additions⟩ :: after ∧
      (∀ sample, ledger trackIds (additions ++ [⟨trackId, sample⟩]) =
        before ++ TrackSamples.push ⟨trackId, samplesOf trackId additions⟩ sample :: after) ∧
      (∀ other ∈ before, other.trackId ≠ trackId) ∧
      ((∃ later ∈ after, later.samples ≠ []) ↔
        ∃ other ∈ additions, trackIds.idxOf trackId < trackIds.idxOf other.trackId) := by
  induction trackIds generalizing additions with
  | nil => cases hid
  | cons first trackIds ih =>
    have hrest := mem_of_filter h
    by_cases hfirst : first = trackId
    · subst hfirst
      refine ⟨[], _, rfl, ?_, by simp, ?_⟩
      · intro sample
        simp [ledger, samplesOf, TrackSamples.push]
      · rw [exists_samples_ledger hrest]
        simp only [idxOf_self_lt, List.mem_filter, bne_iff_ne]
    · have hne : trackId ≠ first := fun heq => hfirst heq.symm
      obtain ⟨before, after, hsplit, hpush, hbefore, hlater⟩ :=
        ih ((List.mem_cons.1 hid).resolve_left hne) hrest
      rw [samplesOf_filter hne] at hsplit hpush
      refine ⟨⟨first, samplesOf first additions⟩ :: before, after, ?_, ?_, ?_, ?_⟩
      · rw [ledger, hsplit]
        rfl
      · intro sample
        have hkept : (additions ++ [(⟨trackId, sample⟩ : Addition)]).filter (·.trackId != first) =
            additions.filter (·.trackId != first) ++ [⟨trackId, sample⟩] := by
          simp [hne]
        have hother : samplesOf first (additions ++ [⟨trackId, sample⟩]) =
            samplesOf first additions := by
          simp [samplesOf, hne]
        rw [ledger, hkept, hother, hpush]
        rfl
      · intro other hmem
        rcases List.mem_cons.1 hmem with rfl | hmem
        · exact hfirst
        · exact hbefore other hmem
      · rw [hlater]
        simp only [idxOf_cons_lt hfirst, List.mem_filter, bne_iff_ne, and_assoc]

end Addition

namespace Building

/-- At any time, the tracks have the samples that were taken for them, and the data of the
tracks, one after the other, is the data of the samples in the order in which they came. -/
structure Consistent (sequenceNumber : UInt32) (trackIds : List UInt32) (building : Building) :
    Prop where
  stores : building.fragment.Stores sequenceNumber (Addition.ledger trackIds building.taken)
  known : ∀ addition ∈ building.taken, addition.trackId ∈ trackIds
  inOrder : (Addition.ledger trackIds building.taken).flatMap (·.data) =
    building.taken.flatMap (·.sample.data)

namespace Consistent

variable {sequenceNumber : UInt32} {trackIds : List UInt32} {building : Building}
  {addition : Addition}

theorem start (sequenceNumber : UInt32) (trackIds : List UInt32) :
    (ofTracks sequenceNumber trackIds).Consistent sequenceNumber trackIds := by
  have hstores := Fragment.Stores.ofTracks sequenceNumber trackIds
  refine ⟨?_, fun _ hmem => (List.not_mem_nil hmem).elim, ?_⟩
  · rwa [← Addition.ledger_nil] at hstores
  · change (Addition.ledger trackIds []).flatMap (·.data) = []
    rw [Addition.ledger_nil]
    exact flatMap_data_of_empty (by simp)

/-- A sample that may not be taken changes nothing. -/
theorem attempt_refused (h : building.Consistent sequenceNumber trackIds)
    (hrefused : addition.Refused trackIds building.taken) :
    ∃ error, building.attempt addition = ⟨building.fragment, some error⟩ := by
  by_cases hid : addition.trackId ∈ trackIds
  · obtain ⟨before, after, hsplit, -, hbefore, hlater⟩ := Addition.ledger_split hid h.known
    have hstores := h.stores
    rw [hsplit] at hstores
    apply hstores.append_refused hbefore
    rw [hlater]
    exact hrefused.resolve_left (not_not.2 hid)
  · refine ⟨_, Fragment.appendToTrack_of_notMem ?_⟩
    rw [h.stores.map_trackId, Addition.map_trackId_ledger]
    exact hid

/-- Any other sample is taken while the fragment stays small. -/
theorem attempt_taken (h : building.Consistent sequenceNumber trackIds)
    (htaken : ¬ addition.Refused trackIds building.taken)
    (hsmall : building.fragment.size < 2 ^ 31)
    (hgrown : (building.add addition).fragment.size < 2 ^ 31) :
    (building.attempt addition).error = none ∧
      (building.add addition).Consistent sequenceNumber trackIds := by
  simp only [Addition.Refused, not_or, not_not] at htaken
  obtain ⟨hid, hfree, hsize⟩ := htaken
  obtain ⟨before, after, hsplit, hpush, hbefore, hlater⟩ := Addition.ledger_split hid h.known
  have hafter : ∀ later ∈ after, later.samples = [] := by
    intro later hmem
    by_contra hne
    exact hfree (hlater.1 ⟨later, hmem, hne⟩)
  have hstores := h.stores
  rw [hsplit] at hstores
  obtain ⟨hdone, hnext⟩ := hstores.append_taken hbefore hafter hsize hsmall hgrown
  have htaken : (building.add addition).taken = building.taken ++ [addition] :=
    if_pos (Option.isNone_iff_eq_none.2 hdone)
  refine ⟨hdone, ?_, ?_, ?_⟩
  · rw [htaken, hpush]
    exact hnext
  · rw [htaken]
    exact List.forall_mem_append.2 ⟨h.known, List.forall_mem_singleton.2 hid⟩
  · have hold := h.inOrder
    rw [hsplit] at hold
    rw [htaken, hpush, flatMap_data_push hafter, hold]
    simp

theorem add (h : building.Consistent sequenceNumber trackIds)
    (hsmall : building.fragment.size < 2 ^ 31)
    (hgrown : (building.add addition).fragment.size < 2 ^ 31) :
    (building.add addition).Consistent sequenceNumber trackIds := by
  by_cases hrefused : addition.Refused trackIds building.taken
  · obtain ⟨error, hattempt⟩ := h.attempt_refused hrefused
    have hsame : building.add addition = building := by
      unfold Building.add
      rw [hattempt]
      rfl
    rwa [hsame]
  · exact (h.attempt_taken hrefused hsmall hgrown).2

end Consistent

theorem addAll_take_succ (building : Building) {additions : List Addition} {k : Nat}
    (hk : k < additions.length) :
    building.addAll (additions.take (k + 1)) =
      (building.addAll (additions.take k)).add additions[k] := by
  rw [addAll, List.take_succ_eq_append_getElem hk, List.foldl_append]
  rfl

theorem consistent_addAll {sequenceNumber : UInt32} {trackIds : List UInt32}
    {additions : List Addition}
    (hsmall : ∀ k ≤ additions.length,
      ((ofTracks sequenceNumber trackIds).addAll (additions.take k)).fragment.size < 2 ^ 31)
    {k : Nat} (hk : k ≤ additions.length) :
    ((ofTracks sequenceNumber trackIds).addAll (additions.take k)).Consistent sequenceNumber
      trackIds := by
  induction k with
  | zero => exact .start sequenceNumber trackIds
  | succ k ih =>
    have hgrown := hsmall (k + 1) hk
    rw [addAll_take_succ _ hk] at hgrown ⊢
    exact (ih (Nat.le_of_succ_le hk)).add (hsmall k (Nat.le_of_succ_le hk)) hgrown

/-- What becomes of samples that are offered to a fragment one after the other. -/
structure Faithful (sequenceNumber : UInt32) (trackIds : List UInt32)
    (additions : List Addition) : Prop where
  refused : ∀ k (hk : k < additions.length),
    let building := (ofTracks sequenceNumber trackIds).addAll (additions.take k)
    (building.attempt additions[k]).error ≠ none ↔ additions[k].Refused trackIds building.taken
  unchanged : ∀ k (hk : k < additions.length),
    let building := (ofTracks sequenceNumber trackIds).addAll (additions.take k)
    (building.attempt additions[k]).error ≠ none →
      (building.attempt additions[k]).fragment = building.fragment
  samples : ∀ trackId ∈ trackIds, ∀ trex,
    let building := (ofTracks sequenceNumber trackIds).addAll additions
    let given := Addition.samplesOf trackId building.taken
    (Sample.startTime given).toNat + (given.map (·.duration.toNat)).sum < UInt64.size →
      ∃ read, building.fragment.trackSamples trackId trex = .ok read ∧ Sample.ReadBack given read
  payload :
    let building := (ofTracks sequenceNumber trackIds).addAll additions
    building.fragment.mdat.payload = building.taken.flatMap (·.sample.data)

/-- While the fragment stays small, exactly the samples that have to be refused are refused, and
all others come back from their tracks. -/
theorem addAll_faithful {sequenceNumber : UInt32} {trackIds : List UInt32}
    {additions : List Addition}
    (hsmall : ∀ k ≤ additions.length,
      ((ofTracks sequenceNumber trackIds).addAll (additions.take k)).fragment.size < 2 ^ 31) :
    Faithful sequenceNumber trackIds additions := by
  have hend := consistent_addAll hsmall le_rfl
  rw [List.take_length] at hend
  refine ⟨?_, ?_, ?_, ?_⟩
  · intro k hk building
    have hbuilding := consistent_addAll hsmall hk.le
    have hgrown := hsmall (k + 1) hk
    rw [addAll_take_succ _ hk] at hgrown
    constructor
    · intro herror
      by_contra htaken
      exact herror (hbuilding.attempt_taken htaken (hsmall k hk.le) hgrown).1
    · intro hrefused
      obtain ⟨error, hattempt⟩ := hbuilding.attempt_refused hrefused
      rw [hattempt]
      exact Option.some_ne_none error
  · intro k hk building herror
    have hbuilding := consistent_addAll hsmall hk.le
    have hgrown := hsmall (k + 1) hk
    rw [addAll_take_succ _ hk] at hgrown
    by_cases hrefused : additions[k].Refused trackIds building.taken
    · obtain ⟨error, hattempt⟩ := hbuilding.attempt_refused hrefused
      rw [hattempt]
    · exact absurd (hbuilding.attempt_taken hrefused (hsmall k hk.le) hgrown).1 herror
  · intro trackId hid trex building given hfits
    obtain ⟨before, after, hsplit, -, hbefore, -⟩ := Addition.ledger_split hid hend.known
    have hstores := hend.stores
    rw [hsplit] at hstores
    rw [hstores.trackSamples_eq hbefore trex]
    exact Sample.readBack_retimed hfits
  · intro building
    rw [← hend.inOrder, hend.stores.payload]

/-- Two tracks in turns. The first takes no sample once the second has data, a third one is not
there, and a sample that is shorter than it says is refused as well. -/
theorem addAll_faithful_two_tracks :
    let sample (time : UInt64) (data : Bytes) : Sample := ⟨0, 10, 2, -1, time, data⟩
    let additions : List Addition :=
      [⟨1, sample 5 [1, 2]⟩, ⟨1, sample 9 [3, 4]⟩, ⟨2, sample 7 [5, 6]⟩, ⟨1, sample 25 [7, 8]⟩,
        ⟨3, sample 0 [7, 8]⟩, ⟨2, sample 17 [7]⟩, ⟨2, sample 17 [7, 8]⟩]
    (∀ k ≤ additions.length,
      ((ofTracks 4 [1, 2]).addAll (additions.take k)).fragment.size < 2 ^ 31) ∧
      ((ofTracks 4 [1, 2]).addAll additions).taken =
        [⟨1, sample 5 [1, 2]⟩, ⟨1, sample 9 [3, 4]⟩, ⟨2, sample 7 [5, 6]⟩,
          ⟨2, sample 17 [7, 8]⟩] ∧
      Faithful 4 [1, 2] additions := by
  intro sample additions
  have hsmall : ∀ k ≤ additions.length,
      ((ofTracks 4 [1, 2]).addAll (additions.take k)).fragment.size < 2 ^ 31 := by
    decide +kernel
  exact ⟨hsmall, by decide +kernel, addAll_faithful hsmall⟩

end Building
end FragmentedMp4

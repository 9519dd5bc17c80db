import FragmentedMp4.Segment.CommonDuration
import FragmentedMp4.Proofs.Fragment.CommonDuration
import FragmentedMp4.Proofs.Results

/-!
# The common duration of the samples of a segment

When the samples of all fragments can be read, the common duration of a segment is the one that
all of them have. If there is none, the error names the first fragment that stands in the way:
its own samples have no duration in common, or another one than those of the fragments before it.
-/
namespace FragmentedMp4
namespace Segment

/-- Fragments that have been looked at agree: there are none of them, or their samples all have
the duration that was found. -/
structure Agreed (read : List (List Sample)) (found : Option UInt32) : Prop where
  none_iff : found = none ↔ read = []
  shared : ∀ samples ∈ read, HaveDuration samples (found.getD 0)

/-- The error names the first fragment, counted from 1, that has no common duration or does not
have that of the fragments before it. -/
inductive NamesFirstOdd (read : List (List Sample)) : Error → Prop
  | flawed {before after : List (List Sample)} {odd : List Sample} {expected : UInt32}
      {flaw : DurationFlaw} (split : read = before ++ odd :: after)
      (agreed : ∀ samples ∈ before, HaveDuration samples expected) (explains : flaw.Explains odd) :
      NamesFirstOdd read (.inFragment (before.length + 1) (.noCommonDuration flaw))
  | differs {before after : List (List Sample)} {odd : List Sample} {expected found : UInt32}
      (split : read = before ++ odd :: after) (some : before ≠ [])
      (agreed : ∀ samples ∈ before, HaveDuration samples expected)
      (other : HaveDuration odd found) (ne : expected ≠ found) :
      NamesFirstOdd read
        (.durationMismatch (before.length + 1) expected.toNat found.toNat)

variable {trex : TrackExtends} {fragments : List Fragment} {read before : List (List Sample)}
  {found : Option UInt32}

theorem Agreed.append_singleton {samples : List Sample} {duration : UInt32}
    (hbefore : ∀ samples ∈ before, HaveDuration samples duration)
    (hlast : HaveDuration samples duration) : Agreed (before ++ [samples]) (some duration) := by
  refine ⟨iff_of_false (Option.some_ne_none _) (by simp), ?_⟩
  exact List.forall_mem_append.2 ⟨hbefore, List.forall_mem_singleton.2 hlast⟩

theorem NamesFirstOdd.not_shared {error : Error} (h : NamesFirstOdd read error)
    (duration : UInt32) : ¬ ∀ samples ∈ read, HaveDuration samples duration := by
  intro hall
  cases h with
  | flawed split _ explains =>
    exact explains.not_haveDuration duration (hall _ (by simp [split]))
  | differs split some agreed other ne =>
    obtain ⟨samples, hmem⟩ := List.exists_mem_of_ne_nil _ some
    have hexpected := (agreed samples hmem).unique (hall samples (by simp [split, hmem]))
    exact ne (hexpected.trans ((hall _ (by simp [split])).unique other))

/-- Looking at more fragments comes to an end at which all agree, or at the first odd one. -/
theorem commonDurationFrom_cases (hbefore : Agreed before found)
    (hread : List.Forall₂ (fun fragment samples => fragment.samples (some trex) = .ok samples)
      fragments read) :
    (∃ last, commonDurationFrom trex (before.length + 1) found fragments = .ok last ∧
      Agreed (before ++ read) last) ∨
    ∃ error, commonDurationFrom trex (before.length + 1) found fragments = .error error ∧
      NamesFirstOdd (before ++ read) error := by
  induction hread generalizing before found with
  | nil => exact .inl ⟨found, rfl, by rwa [List.append_nil]⟩
  | @cons fragment samples fragments read hsamples _ ih =>
    rcases Fragment.commonDuration_cases hsamples with ⟨duration, hfound, hhave⟩ |
      ⟨flaw, hnone, hflaw⟩
    · have hgoesOn (hshared : ∀ samples ∈ before, HaveDuration samples duration) :=
        ih (Agreed.append_singleton hshared hhave)
      rw [List.append_assoc, List.singleton_append, List.length_append, List.length_singleton]
        at hgoesOn
      simp only [commonDurationFrom, hfound, mapError_ok, bind, Except.bind]
      cases found with
      | none =>
        refine hgoesOn fun samples hmem => ?_
        rw [hbefore.none_iff.1 rfl] at hmem
        cases hmem
      | some expected =>
        simp only
        by_cases hsame : expected = duration
        · subst hsame
          rw [if_pos rfl]
          exact hgoesOn hbefore.shared
        · rw [if_neg hsame]
          have hsome : before ≠ [] := fun h => Option.some_ne_none _ (hbefore.none_iff.2 h)
          exact .inr ⟨_, rfl, .differs rfl hsome hbefore.shared hhave hsame⟩
    · simp only [commonDurationFrom, hnone, mapError_error, bind, Except.bind]
      exact .inr ⟨_, rfl, .flawed rfl hbefore.shared hflaw⟩

theorem commonDuration_cases {segment : Segment}
    (hread : List.Forall₂ (fun fragment samples => fragment.samples (some trex) = .ok samples)
      segment.fragments read) :
    (∃ duration, segment.commonDuration (some trex) = .ok duration ∧
      ∀ samples ∈ read, HaveDuration samples duration) ∨
    ∃ error, segment.commonDuration (some trex) = .error error ∧ NamesFirstOdd read error := by
  have hstart : Agreed [] none := ⟨iff_of_true rfl rfl, by simp⟩
  rcases commonDurationFrom_cases hstart hread with ⟨last, hlast, hagreed⟩ | ⟨error, herror, hodd⟩
  · rw [List.length_nil, Nat.zero_add] at hlast
    refine .inl ⟨last.getD 0, ?_, hagreed.shared⟩
    simp only [commonDuration, hlast]
    rfl
  · rw [List.length_nil, Nat.zero_add] at herror
    refine .inr ⟨error, ?_, hodd⟩
    simp only [commonDuration, herror]
    rfl

/-- The common duration of a fragment whose samples can be read is the one that all of them have,
and else the error is what keeps them from having one. The common duration of a segment whose
fragments can all be read is the one that all samples have while no fragment is empty, and else
the error names the first fragment that is odd. -/
theorem commonDuration_agrees (trex : TrackExtends) :
    (∀ (fragment : Fragment) (samples : List Sample),
      fragment.samples (some trex) = .ok samples →
      (∀ duration, fragment.commonDuration trex = .ok duration ↔
        HaveDuration samples duration) ∧
      ((∀ duration, ¬ HaveDuration samples duration) →
        ∃ flaw, fragment.commonDuration trex = .error (.noCommonDuration flaw) ∧
          flaw.Explains samples)) ∧
    ∀ (segment : Segment) (read : List (List Sample)), segment.fragments ≠ [] →
      List.Forall₂ (fun fragment samples => fragment.samples (some trex) = .ok samples)
        segment.fragments read →
      (∀ duration, segment.commonDuration (some trex) = .ok duration ↔
        ∀ samples ∈ read, HaveDuration samples duration) ∧
      ∀ error, segment.commonDuration (some trex) = .error error → NamesFirstOdd read error := by
  constructor
  · intro fragment samples hsamples
    have hcases := Fragment.commonDuration_cases hsamples
    have herror : (∃ duration, fragment.commonDuration trex = .ok duration ∧
        HaveDuration samples duration) ∨ ∃ error, fragment.commonDuration trex = .error error ∧
          ∃ flaw : DurationFlaw, error = .noCommonDuration flaw ∧ flaw.Explains samples :=
      hcases.imp_right fun ⟨flaw, hnone, hflaw⟩ => ⟨_, hnone, flaw, rfl, hflaw⟩
    constructor
    · exact (eq_ok_iff_of_cases herror (fun _ _ hfirst hsecond => hfirst.unique hsecond)
        fun _ ⟨_, _, hflaw⟩ => hflaw.not_haveDuration).1
    · intro hno
      rcases hcases with ⟨duration, -, hhave⟩ | hflaw
      · exact absurd hhave (hno duration)
      · exact hflaw
  · intro segment read hsome hread
    have hlooked : read ≠ [] := by
      intro hempty
      rw [hempty, List.forall₂_nil_right_iff] at hread
      exact hsome hread
    obtain ⟨samples, hmem⟩ := List.exists_mem_of_ne_nil read hlooked
    exact eq_ok_iff_of_cases (commonDuration_cases hread)
      (fun _ _ hfirst hsecond => (hfirst samples hmem).unique (hsecond samples hmem))
      fun _ hodd => hodd.not_shared

/-- Two fragments, of which the first has the durations of its second track from an entry and
from the defaults of the track, and the second has its own from the header. -/
theorem commonDuration_agrees_on_first :
    let trex : TrackExtends := ⟨8, 1, 3000, 0, 0⟩
    let run : TrackRun :=
      ⟨none, none, [⟨some 3000, some 1, none, none⟩, ⟨none, some 1, none, none⟩]⟩
    let first : Fragment :=
      .ofBoxes ⟨⟨1⟩, [⟨.ofTrack 7, [], none⟩, ⟨.ofTrack 8, [run], some ⟨0, 0⟩⟩]⟩ ⟨[1, 2]⟩
    let header : TrackFragmentHeader := { TrackFragmentHeader.ofTrack 8 with duration := some 1500 }
    let second : Fragment :=
      .ofBoxes ⟨⟨2⟩, [⟨header, [⟨none, none, [⟨none, some 1, none, none⟩]⟩], some ⟨0, 6000⟩⟩]⟩ ⟨[3]⟩
    let segment := (cmaf.addFragment first).addFragment second
    let samples : List Sample := [⟨0, 3000, 1, 0, 0, [1]⟩, ⟨0, 3000, 1, 0, 3000, [2]⟩]
    let later : List Sample := [⟨0, 1500, 1, 0, 6000, [3]⟩]
    first.samples (some trex) = .ok samples ∧ segment.fragments ≠ [] ∧
      List.Forall₂ (fun fragment read => fragment.samples (some trex) = .ok read)
        segment.fragments [samples, later] ∧
      first.commonDuration trex = .ok 3000 ∧ HaveDuration samples 3000 ∧
      segment.commonDuration (some trex) = .error (.durationMismatch 2 3000 1500) ∧
      NamesFirstOdd [samples, later] (.durationMismatch 2 3000 1500) := by
  intro trex run first header second segment samples later
  have hfirst : first.samples (some trex) = .ok samples := by decide +kernel
  have hsecond : second.samples (some trex) = .ok later := by decide +kernel
  have hsome : segment.fragments ≠ [] := List.cons_ne_nil _ _
  have hread : List.Forall₂ (fun fragment read => fragment.samples (some trex) = .ok read)
      segment.fragments [samples, later] := .cons hfirst (.cons hsecond .nil)
  have hduration : first.commonDuration trex = .ok 3000 := by decide
  have hmismatch : segment.commonDuration (some trex) = .error (.durationMismatch 2 3000 1500) := by
    decide
  obtain ⟨hfragment, hsegment⟩ := commonDuration_agrees trex
  exact ⟨hfirst, hsome, hread, hduration, ((hfragment first samples hfirst).1 3000).1 hduration,
    hmismatch, (hsegment segment _ hsome hread).2 _ hmismatch⟩

end Segment
end FragmentedMp4

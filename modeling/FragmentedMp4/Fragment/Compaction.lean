import FragmentedMp4.Fragment.DataOffsets

/-!
# Compact runs

A value that all samples of a run share need not be stored with each of them: it can
become a default of the track fragment. Flags that all samples but the first share
become the default as well, with those of the first sample kept in the run.

Only a track fragment with a single run is changed, since its defaults would else
change the meaning of other runs.
-/

namespace FragmentedMp4

/-- The value that all items have, if they all have one and the same. -/
def shared? {α : Type} [DecidableEq α] : List (Option α) → Option α
  | some first :: rest => if rest.all (· == some first) then some first else none
  | _ => none

namespace RunSample

def withoutDuration (sample : RunSample) : RunSample :=
  { sample with duration := none }

def withoutSize (sample : RunSample) : RunSample :=
  { sample with size := none }

def withoutFlags (sample : RunSample) : RunSample :=
  { sample with flags := none }

def withoutCompositionOffset (sample : RunSample) : RunSample :=
  { sample with compositionOffset := none }

end RunSample

/-- The header of a track fragment together with its only run. -/
structure SingleRun where
  header : TrackFragmentHeader
  run : TrackRun

namespace SingleRun

def mapSamples (pair : SingleRun) (change : RunSample → RunSample) : SingleRun :=
  { pair with run := { pair.run with samples := pair.run.samples.map change } }

def moveDuration (pair : SingleRun) : SingleRun :=
  match shared? (pair.run.samples.map (·.duration)) with
  | none => pair
  | some duration =>
    { pair.mapSamples RunSample.withoutDuration with
      header := { pair.header with duration := some duration } }

def moveSize (pair : SingleRun) : SingleRun :=
  match shared? (pair.run.samples.map (·.size)) with
  | none => pair
  | some size =>
    { pair.mapSamples RunSample.withoutSize with
      header := { pair.header with size := some size } }

/-- Stores no flags with the samples, given their default and those of the first one. -/
def setFlags (pair : SingleRun) (first : Option UInt32) (flags : UInt32) : SingleRun where
  header := { pair.header with flags := some flags }
  run :=
    { pair.run with
      firstSampleFlags := first
      samples := pair.run.samples.map RunSample.withoutFlags }

/-- Moves flags that are shared, or shared by all samples but the first, unless the run
already has flags for its first sample. -/
def moveFlags (pair : SingleRun) : SingleRun :=
  if pair.run.firstSampleFlags.isSome then pair
  else
    let flags := pair.run.samples.map (·.flags)
    match shared? flags with
    | some value => pair.setFlags none value
    | none =>
      match flags with
      | some first :: rest =>
        match shared? rest with
        | some value => pair.setFlags (some first) value
        | none => pair
      | _ => pair

/-- Leaves composition offsets out if all of them are zero. -/
def dropCompositionOffsets (pair : SingleRun) : SingleRun :=
  if pair.run.samples.all (·.compositionOffset == some 0) then
    pair.mapSamples RunSample.withoutCompositionOffset
  else pair

/-- All changes, in order. -/
def compacted (pair : SingleRun) : SingleRun :=
  pair.moveDuration.moveSize.moveFlags.dropCompositionOffsets

end SingleRun

namespace TrackFragment

/-- The track fragment with the values that the samples of its only run share moved. -/
def compacted (track : TrackFragment) : TrackFragment :=
  match track.runs with
  | [run] =>
    if run.samples.isEmpty then track
    else
      let pair := SingleRun.compacted ⟨track.header, run⟩
      { track with header := pair.header, runs := [pair.run] }
  | _ => track

end TrackFragment

namespace MovieFragment

def compacted (moof : MovieFragment) : MovieFragment :=
  { moof with tracks := moof.tracks.map TrackFragment.compacted }

/-- The movie fragment in a layout, with its data offsets as they are. -/
def inLayout (moof : MovieFragment) : RunLayout → MovieFragment
  | .stored => moof
  | .compact => moof.compacted

end MovieFragment
end FragmentedMp4

import FragmentedMp4.Box.TrackExtends

/-!
# Commands

What a command line asks for, with all settings in place. Paths are texts of the system, which
need not be Unicode.
-/

namespace FragmentedMp4.CommandLine

/-- The settings that stand in for the defaults of a track. -/
structure TrackSettings where
  trackId : UInt32
  duration : UInt32
  size : UInt32
  flags : UInt32

def TrackSettings.defaults (settings : TrackSettings) : TrackExtends where
  trackId := settings.trackId
  descriptionIndex := 1
  duration := settings.duration
  size := settings.size
  flags := settings.flags

/-- What to do, with all settings. -/
inductive Command (SystemText : Type) where
  /-- Print the description of a segment. -/
  | info (input : SystemText) (levels : String)
  /-- Print the common sample duration of a segment. -/
  | duration (input : SystemText) (settings : TrackSettings)
  /-- Cut a segment anew. -/
  | refragment (input output : SystemText) (target : UInt32) (compact withoutType : Bool)
      (settings : TrackSettings)

end FragmentedMp4.CommandLine

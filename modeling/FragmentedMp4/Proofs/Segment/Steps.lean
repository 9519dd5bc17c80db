import FragmentedMp4.Proofs.Box.Writing
import FragmentedMp4.Proofs.Fragment.Size
import FragmentedMp4.Segment.Encoding

/-!
# The steps of writing a segment

Fragments and segments are written by one traversal, whatever they are written to. Here it
is laid out as a list of steps, each of which puts one top-level box or stops with an
error. What is complete before the first step that fails, and how that step fails, can be
read off the list; both a stream and a buffer that is large enough end up exactly so.
-/
namespace FragmentedMp4

/-- One step of writing: a box with the context of an error in it, or an error that comes
up in place of a box. -/
inductive WriteStep where
  | put (context : Error → Error) (box : AnyBox)
  | stop (error : Error)

namespace Writing

variable {σ α β : Type}

theorem wrapping_bind (wrap : Error → Error) (action : Writing σ α) (next : α → Writing σ β) :
    wrapping wrap (action >>= next) =
      wrapping wrap action >>= fun value => wrapping wrap (next value) := by
  funext place
  simp only [wrapping, bind, EStateM.bind]
  cases action place <;> rfl

theorem wrapping_wrapping (outer inner : Error → Error) (action : Writing σ α) :
    wrapping outer (wrapping inner action) = wrapping (outer ∘ inner) action := by
  funext place
  simp only [wrapping]
  cases action place with
  | ok value place => rfl
  | error failure place => cases failure <;> rfl

theorem wrapping_forM {γ : Type} (wrap : Error → Error) (action : γ → Writing σ Unit)
    (xs : List γ) : wrapping wrap (xs.forM action) = xs.forM fun x => wrapping wrap (action x) := by
  induction xs with
  | nil => rfl
  | cons x xs ih =>
    change wrapping wrap (action x >>= fun _ => xs.forM action) = _
    rw [wrapping_bind, ih]
    rfl

end Writing

namespace WriteStep

variable {σ : Type}

/-- Carries a step out, with an action that puts boxes to some place. -/
def run (put : AnyBox → Writing σ Unit) : WriteStep → Writing σ Unit
  | .put context box => Writing.wrapping context (put box)
  | .stop error => Writing.ofExcept (.error error)

/-- The step with more context for its error. -/
def within (outer : Error → Error) : WriteStep → WriteStep
  | .put context box => .put (outer ∘ context) box
  | .stop error => .stop (outer error)

/-- How the step fails, wherever there is room enough. -/
def failure? : WriteStep → Option Failure
  | .put context box => (Box.failure? box).map (Failure.mapError context)
  | .stop error => some (.error error)

def size : WriteStep → Nat
  | .put _ box => Box.size box
  | .stop _ => 0

/-- The failure of the first step that fails. -/
def firstFailure? (steps : List WriteStep) : Option Failure :=
  steps.findSome? failure?

/-- The boxes of all steps before the first one that fails. -/
def completeBoxes : List WriteStep → List AnyBox
  | [] => []
  | .stop _ :: _ => []
  | .put _ box :: steps => if (Box.failure? box).isSome then [] else box :: completeBoxes steps

def box? : WriteStep → Option AnyBox
  | .put _ box => some box
  | .stop _ => none

def boxesOf (steps : List WriteStep) : List AnyBox :=
  steps.filterMap box?

def bytesOf (boxes : List AnyBox) : Bytes :=
  boxes.flatMap fun box => (Box.emission box).bytes

theorem run_within (put : AnyBox → Writing σ Unit) (outer : Error → Error) (step : WriteStep) :
    run put (step.within outer) = Writing.wrapping outer (run put step) := by
  cases step with
  | put context box => exact (Writing.wrapping_wrapping outer context (put box)).symm
  | stop error => rfl

theorem forM_within (put : AnyBox → Writing σ Unit) (outer : Error → Error)
    (steps : List WriteStep) :
    (steps.map (within outer)).forM (run put) = Writing.wrapping outer (steps.forM (run put)) := by
  rw [Writing.wrapping_forM]
  induction steps with
  | nil => rfl
  | cons step steps ih =>
    change (run put (step.within outer) >>= fun _ => (steps.map (within outer)).forM (run put)) = _
    rw [run_within, ih]
    rfl

theorem wrapping_apply_ok {wrap : Error → Error} {action : Writing σ Unit} {place after : σ}
    (h : action place = .ok () after) : Writing.wrapping wrap action place = .ok () after := by
  simp only [Writing.wrapping, h]

theorem wrapping_apply_error {wrap : Error → Error} {action : Writing σ Unit} {place after : σ}
    {failure : Failure} (h : action place = .error failure after) :
    Writing.wrapping wrap action place = .error (failure.mapError wrap) after := by
  simp only [Writing.wrapping, h]

theorem forM_cons_ok {put : AnyBox → Writing σ Unit} {step : WriteStep} {steps : List WriteStep}
    {place after : σ} (h : run put step place = .ok () after) :
    (step :: steps).forM (run put) place = steps.forM (run put) after := by
  change EStateM.bind (run put step) (fun _ => steps.forM (run put)) place = _
  simp only [EStateM.bind, h]

theorem forM_cons_error {put : AnyBox → Writing σ Unit} {step : WriteStep}
    {steps : List WriteStep} {place after : σ} {failure : Failure}
    (h : run put step place = .error failure after) :
    (step :: steps).forM (run put) place = .error failure after := by
  change EStateM.bind (run put step) (fun _ => steps.forM (run put)) place = _
  simp only [EStateM.bind, h]

@[simp] theorem size_put (context : Error → Error) (box : AnyBox) :
    (put context box).size = Box.size box := rfl

theorem firstFailure?_put_of_none {box : AnyBox} (h : Box.failure? box = none)
    (context : Error → Error) (steps : List WriteStep) :
    firstFailure? (.put context box :: steps) = firstFailure? steps := by
  simp [firstFailure?, failure?, h]

theorem firstFailure?_put_of_some {box : AnyBox} {failure : Failure}
    (h : Box.failure? box = some failure) (context : Error → Error) (steps : List WriteStep) :
    firstFailure? (.put context box :: steps) = some (failure.mapError context) := by
  simp [firstFailure?, failure?, h]

theorem completeBoxes_put_of_none {box : AnyBox} (h : Box.failure? box = none)
    (context : Error → Error) (steps : List WriteStep) :
    completeBoxes (.put context box :: steps) = box :: completeBoxes steps := by
  simp [completeBoxes, h]

theorem completeBoxes_put_of_some {box : AnyBox} {failure : Failure}
    (h : Box.failure? box = some failure) (context : Error → Error) (steps : List WriteStep) :
    completeBoxes (.put context box :: steps) = [] := by
  simp [completeBoxes, h]

theorem complete_of_no_failure {steps : List WriteStep} (h : firstFailure? steps = none) :
    completeBoxes steps = boxesOf steps ∧ ∀ box ∈ boxesOf steps, Box.Writable box := by
  induction steps with
  | nil => exact ⟨rfl, by simp [boxesOf]⟩
  | cons step steps ih =>
    cases step with
    | stop error => cases h
    | put context box =>
      cases hcase : Box.failure? box with
      | some failure =>
        rw [firstFailure?_put_of_some hcase] at h
        cases h
      | none =>
        rw [firstFailure?_put_of_none hcase] at h
        obtain ⟨hcomplete, hwritable⟩ := ih h
        have hboxes : boxesOf (.put context box :: steps) = box :: boxesOf steps := rfl
        rw [completeBoxes_put_of_none hcase, hcomplete, hboxes]
        refine ⟨rfl, ?_⟩
        intro other hmem
        rcases List.mem_cons.mp hmem with rfl | hmem
        · exact Box.failure?_eq_none.1 hcase
        · exact hwritable other hmem

theorem exists_of_failure {steps : List WriteStep} {failure : Failure}
    (h : firstFailure? steps = some failure) :
    ∃ done step later, steps = done ++ step :: later ∧ firstFailure? done = none ∧
      step.failure? = some failure ∧ completeBoxes steps = boxesOf done := by
  induction steps with
  | nil => cases h
  | cons step steps ih =>
    cases step with
    | stop error => exact ⟨[], .stop error, steps, rfl, rfl, h, rfl⟩
    | put context box =>
      cases hcase : Box.failure? box with
      | some other =>
        rw [firstFailure?_put_of_some hcase] at h
        refine ⟨[], .put context box, steps, rfl, rfl, ?_, completeBoxes_put_of_some hcase ..⟩
        rw [failure?, hcase]
        exact h
      | none =>
        rw [firstFailure?_put_of_none hcase] at h
        obtain ⟨done, step, later, rfl, hdone, hstep, hcomplete⟩ := ih h
        refine ⟨.put context box :: done, step, later, rfl, ?_, hstep, ?_⟩
        · rw [firstFailure?_put_of_none hcase, hdone]
        · rw [completeBoxes_put_of_none hcase, hcomplete]
          rfl

@[simp] theorem bytesOf_nil : bytesOf [] = [] := rfl

@[simp] theorem bytesOf_cons (box : AnyBox) (boxes : List AnyBox) :
    bytesOf (box :: boxes) = (Box.emission box).bytes ++ bytesOf boxes := rfl

theorem bytesOf_append (first second : List AnyBox) :
    bytesOf (first ++ second) = bytesOf first ++ bytesOf second :=
  List.flatMap_append

/-- A stream without a limit takes the boxes that are complete before the first failure. -/
theorem forM_writeStream (steps : List WriteStep) (bytes : Bytes) :
    steps.forM (run Box.writeStream) ⟨none, bytes⟩ =
      Writing.ending (firstFailure? steps) ⟨none, bytes ++ bytesOf (completeBoxes steps)⟩ := by
  induction steps generalizing bytes with
  | nil =>
    rw [completeBoxes, bytesOf_nil, List.append_nil]
    rfl
  | cons step steps ih =>
    cases step with
    | stop error =>
      rw [forM_cons_error (show run Box.writeStream (.stop error) ⟨none, bytes⟩ = _ from rfl),
        completeBoxes, bytesOf_nil, List.append_nil]
      rfl
    | put context box =>
      cases hcase : Box.failure? box with
      | none =>
        have hwritable := Box.failure?_eq_none.1 hcase
        have hstep : run Box.writeStream (.put context box) ⟨none, bytes⟩ =
            .ok () ⟨none, bytes ++ (Box.emission box).bytes⟩ :=
          wrapping_apply_ok (Box.writeStream_of_writable hwritable bytes)
        rw [forM_cons_ok hstep, ih, firstFailure?_put_of_none hcase,
          completeBoxes_put_of_none hcase, bytesOf_cons, List.append_assoc]
      | some failure =>
        have hstep : run Box.writeStream (.put context box) ⟨none, bytes⟩ =
            .error (failure.mapError context) ⟨none, bytes⟩ :=
          wrapping_apply_error (Box.writeStream_of_failure hcase _)
        rw [forM_cons_error hstep, firstFailure?_put_of_some hcase,
          completeBoxes_put_of_some hcase, bytesOf_nil, List.append_nil]
        rfl

/-- A buffer with room for all steps ends with the same failure and holds the same boxes
behind what it held before. -/
theorem forM_writeBuffer (steps : List WriteStep) (buffer : FixedBuffer)
    (room : (steps.map size).sum ≤ buffer.remaining) :
    ∃ after : FixedBuffer, steps.forM (run Box.writeBuffer) buffer =
        Writing.ending (firstFailure? steps) after ∧
      after.bytes = buffer.bytes ++ bytesOf (completeBoxes steps) ∧
      after.capacity = buffer.capacity := by
  induction steps generalizing buffer with
  | nil => exact ⟨buffer, rfl, (List.append_nil _).symm, rfl⟩
  | cons step steps ih =>
    cases step with
    | stop error =>
      rw [forM_cons_error (show run Box.writeBuffer (.stop error) buffer = _ from rfl)]
      exact ⟨buffer, rfl, (List.append_nil _).symm, rfl⟩
    | put context box =>
      rw [List.map_cons, List.sum_cons, size_put] at room
      have hroom : Box.size box ≤ buffer.remaining := by omega
      cases hcase : Box.failure? box with
      | none =>
        have hwritable := Box.failure?_eq_none.1 hcase
        obtain ⟨middle, hmiddle, hbytes, hcapacity⟩ :=
          Box.writeBuffer_of_writable hwritable hroom
        have hstep : run Box.writeBuffer (.put context box) buffer = .ok () middle :=
          wrapping_apply_ok hmiddle
        have hremaining := FixedBuffer.remaining_of_bytes hbytes hcapacity
        rw [Box.length_emission hwritable] at hremaining
        obtain ⟨after, hafter, hmore, hsame⟩ := ih middle (by omega)
        refine ⟨after, ?_, ?_, hsame.trans hcapacity⟩
        · rw [forM_cons_ok hstep, hafter, firstFailure?_put_of_none hcase]
        · rw [hmore, hbytes, completeBoxes_put_of_none hcase, bytesOf_cons, List.append_assoc]
      | some failure =>
        obtain ⟨after, hafter, hbytes, hcapacity⟩ := Box.writeBuffer_of_failure hcase hroom
        have hstep : run Box.writeBuffer (.put context box) buffer =
            .error (failure.mapError context) after := wrapping_apply_error hafter
        refine ⟨after, ?_, ?_, hcapacity⟩
        · rw [forM_cons_error hstep, firstFailure?_put_of_some hcase]
          rfl
        · rw [hbytes, completeBoxes_put_of_some hcase, bytesOf_nil, List.append_nil]

end WriteStep
end FragmentedMp4

import FragmentedMp4.Proofs.Decoding.Reader

/-!
# Loops over boxes

Boxes that lie one behind the other are read by a loop, whose cursor stands in front of a box and
moves behind it. A loop comes with the law that makes it end: every iteration moves the cursor by
eight bytes at least and not beyond the end. So if a loop comes through, its iterations took pieces
that fill the bytes without a gap. The loop over the children of a box takes one box at a time.
-/
namespace FragmentedMp4

/-- A loop that iterates while its cursor is in front of the end. -/
structure CursorLoop (σ : Type) where
  stop : Nat
  /-- One iteration: the next state, and the place that the cursor moves to. -/
  body : (state : σ) → (position : Nat) → Except Failure (σ × Nat)
  advances : ∀ {state position next after}, body state position = .ok (next, after) →
    position + 8 ≤ after ∧ after ≤ stop

namespace CursorLoop

variable {σ : Type}

def run (loop : CursorLoop σ) (state : σ) (position : Nat) : Except Failure σ :=
  if position < loop.stop then
    match _h : loop.body state position with
    | .error failure => .error failure
    | .ok (next, after) => loop.run next after
  else .ok state
termination_by loop.stop - position
decreasing_by
  have := loop.advances _h
  omega

/-- The iterations of a loop that comes through, each with the places of its cursor before and
after it. -/
inductive Completes (loop : CursorLoop σ) : σ → Nat → List (Nat × Nat) → σ → Prop
  | finish {state : σ} {position : Nat} (hend : ¬ position < loop.stop) :
    Completes loop state position [] state
  | iterate {state next final : σ} {position after : Nat} {moves : List (Nat × Nat)}
    (hposition : position < loop.stop) (hbody : loop.body state position = .ok (next, after))
    (hlater : Completes loop next after moves final) :
    Completes loop state position ((position, after) :: moves) final

def piece (data : Bytes) (move : Nat × Nat) : Bytes :=
  (data.drop move.1).take (move.2 - move.1)

/-- Every iteration moves the cursor on, and stays inside of the bytes. If the loop comes through,
its iterations took pieces of a known kind that fill the bytes. -/
structure Tiles (loop : CursorLoop σ) (data : Bytes) (taken : Nat → Nat → Prop) : Prop where
  advances : ∀ {state position next after}, loop.body state position = .ok (next, after) →
    position + 8 ≤ after ∧ after ≤ data.length
  fills : ∀ {state final}, loop.run state 0 = .ok final →
    ∃ moves, loop.Completes state 0 moves final ∧ (moves.map (piece data)).flatten = data ∧
      ∀ move ∈ moves, taken move.1 move.2

variable {loop : CursorLoop σ} {state final : σ} {position : Nat}

theorem run_of_lt (h : position < loop.stop) :
    loop.run state position = loop.body state position >>= fun pair => loop.run pair.1 pair.2 := by
  rw [run, if_pos h]
  split
  · rename_i failure hbody
    rw [hbody]
    rfl
  · rename_i next after hbody
    rw [hbody]
    rfl

theorem run_of_not_lt (h : ¬ position < loop.stop) : loop.run state position = .ok state := by
  rw [run, if_neg h]

theorem completes_of_run (h : loop.run state position = .ok final) :
    ∃ moves, loop.Completes state position moves final := by
  fun_induction CursorLoop.run loop state position with
  | case1 state position hposition failure hbody => cases h
  | case2 state position hposition next after hbody ih =>
    obtain ⟨moves, hlater⟩ := ih h
    exact ⟨(position, after) :: moves, .iterate hposition hbody hlater⟩
  | case3 state position hend =>
    cases h
    exact ⟨[], .finish hend⟩

variable {data : Bytes} {moves : List (Nat × Nat)}

theorem Completes.flatten_pieces (h : loop.Completes state position moves final)
    (hstop : loop.stop = data.length) : (moves.map (piece data)).flatten = data.drop position := by
  induction h with
  | finish hend => rw [List.drop_of_length_le (by omega), List.map_nil, List.flatten_nil]
  | @iterate _ _ _ position after _ hposition hbody _ ih =>
    have hadvances := loop.advances hbody
    have hrest : data.drop after = (data.drop position).drop (after - position) := by
      rw [List.drop_drop, Nat.add_sub_cancel' (by omega)]
    rw [List.map_cons, List.flatten_cons, ih, hrest]
    exact List.take_append_drop _ _

theorem Completes.forall_moves {taken : Nat → Nat → Prop}
    (htaken : ∀ {state position next after}, loop.body state position = .ok (next, after) →
      taken position after) (h : loop.Completes state position moves final) :
    ∀ move ∈ moves, taken move.1 move.2 := by
  induction h with
  | finish => exact fun _ hmem => nomatch hmem
  | iterate _ hbody _ ih => exact List.forall_mem_cons.2 ⟨htaken hbody, ih⟩

/-- A loop to the end of some bytes fills them with what its iterations take. -/
theorem tiles_of_body {taken : Nat → Nat → Prop} (hstop : loop.stop = data.length)
    (htaken : ∀ {state position next after}, loop.body state position = .ok (next, after) →
      taken position after) : loop.Tiles data taken where
  advances hbody := hstop ▸ loop.advances hbody
  fills h := by
    obtain ⟨moves, hmoves⟩ := completes_of_run h
    exact ⟨moves, hmoves, hmoves.flatten_pieces hstop, hmoves.forall_moves htaken⟩

end CursorLoop

namespace Box

variable {σ : Type}

/-- A box stands between two places. -/
def Spans (data : Bytes) (start stop : Nat) : Prop :=
  ∃ header, BoxHeader.parse (data.drop start) = .ok header ∧ stop = start + header.size

def iterate (step : σ → BoxHeader → Bytes → Except Failure σ) (contents : Bytes) (state : σ)
    (position : Nat) : Except Failure (σ × Nat) := do
  let rest ← Words.slice contents position contents.length
  let header ← BoxHeader.parseInWords rest
  let child ← Words.slice rest 0 header.size
  let next ← step state header child
  let after ← Words.add position header.size
  return (next, after)

variable {inWords : σ → BoxHeader → Bytes → Except Failure σ}
  {step : σ → BoxHeader → Bytes → Except Error σ} {contents : Bytes} {state next : σ}
  {position after : Nat}

theorem iterate_eq_ok (h : iterate inWords contents state position = .ok (next, after)) :
    position ≤ contents.length ∧ Spans contents position after := by
  obtain ⟨rest, hrest, h⟩ := bind_eq_ok.1 h
  obtain ⟨header, hheader, h⟩ := bind_eq_ok.1 h
  obtain ⟨child, -, h⟩ := bind_eq_ok.1 h
  obtain ⟨_, -, h⟩ := bind_eq_ok.1 h
  obtain ⟨sum, hsum, h⟩ := bind_eq_ok.1 h
  cases h
  obtain ⟨hposition, rfl⟩ := Words.eq_of_slice_back hrest
  rw [BoxHeader.parseInWords_eq] at hheader
  exact ⟨hposition, header, mapError_eq_ok.1 hheader, Words.eq_of_add hsum⟩

theorem Spans.bounds (h : Spans contents position after) (hposition : position ≤ contents.length) :
    position + 8 ≤ after ∧ after ≤ contents.length := by
  obtain ⟨header, hparse, rfl⟩ := h
  have hbounds := BoxHeader.parse_bounds hparse
  rw [List.length_drop] at hbounds
  omega

theorem Spans.of_drop {data : Bytes} {position start stop : Nat}
    (h : Spans (data.drop position) start stop) :
    Spans data (position + start) (position + stop) := by
  obtain ⟨header, hparse, rfl⟩ := h
  rw [List.drop_drop] at hparse
  exact ⟨header, hparse, (Nat.add_assoc ..).symm⟩

theorem spans_of_decodeAsInWords {α : Type} {name : FourCC}
    {decodeContents : Bytes → Except Failure α} {data : Bytes} {value : α} {used : Nat}
    (h : decodeAsInWords name decodeContents data = .ok (value, used)) : Spans data 0 used := by
  obtain ⟨header, hparse, h⟩ := bind_eq_ok.1 h
  split_ifs at h
  obtain ⟨contents, -, h⟩ := bind_eq_ok.1 h
  obtain ⟨_, -, h⟩ := bind_eq_ok.1 h
  cases h
  rw [BoxHeader.parseInWords_eq] at hparse
  exact ⟨header, mapError_eq_ok.1 hparse, (Nat.zero_add _).symm⟩

def childLoop (step : σ → BoxHeader → Bytes → Except Failure σ) (contents : Bytes) :
    CursorLoop σ where
  stop := contents.length
  body := iterate step contents
  advances h := (iterate_eq_ok h).2.bounds (iterate_eq_ok h).1

theorem childLoop_tiles (step : σ → BoxHeader → Bytes → Except Failure σ) (contents : Bytes) :
    (childLoop step contents).Tiles contents (Spans contents) :=
  CursorLoop.tiles_of_body rfl fun h => (iterate_eq_ok h).2

theorem iterate_eq (hlength : contents.length < 2 ^ 63)
    (hstep : ∀ state header child, child.length ≤ contents.length →
      inWords state header child = orFailure (step state header child))
    (hposition : position ≤ contents.length) :
    iterate inWords contents state position = orFailure (do
      let header ← BoxHeader.parse (contents.drop position)
      let next ← step state header ((contents.drop position).take header.size)
      return (next, position + header.size)) := by
  unfold iterate
  rw [Words.slice_back hposition]
  simp only [bind, Except.bind, BoxHeader.parseInWords_eq]
  cases hparse : BoxHeader.parse (contents.drop position) with
  | error error => rfl
  | ok header =>
    have hlimit : UInt64.size = 2 ^ 64 := rfl
    have hsize := (BoxHeader.parse_bounds hparse).2.2
    have hchild : ((contents.drop position).take header.size).length ≤ contents.length := by
      rw [List.length_take, List.length_drop]
      omega
    have hafter := Words.add_of_lt
      (by rw [List.length_drop] at hsize; omega : position + header.size < UInt64.size)
    simp only [orFailure, mapError_ok, Words.slice_front hsize, hstep _ _ _ hchild, hafter]
    cases step state header ((contents.drop position).take header.size) <;> rfl

theorem walk_of_lt (state : σ) (h : position < contents.length) :
    walk step state (contents.drop position) = (do
      let header ← BoxHeader.parse (contents.drop position)
      let next ← step state header ((contents.drop position).take header.size)
      walk step next (contents.drop (position + header.size))) := by
  have hsome : (contents.drop position).isEmpty = false := by
    rw [List.isEmpty_eq_false_iff, ← List.length_pos_iff, List.length_drop]
    omega
  rw [walk, hsome, if_neg Bool.false_ne_true]
  split
  · rename_i error hparse
    rw [hparse]
    rfl
  · rename_i header hparse
    rw [hparse, List.drop_drop]
    simp only [bind, Except.bind]
    cases step state header ((contents.drop position).take header.size) <;> rfl

/-- The loop is a walk, if it goes over every child alike. -/
theorem run_childLoop (hlength : contents.length < 2 ^ 63)
    (hstep : ∀ state header child, child.length ≤ contents.length →
      inWords state header child = orFailure (step state header child)) (state : σ)
    (hposition : position ≤ contents.length) :
    (childLoop inWords contents).run state position =
      orFailure (walk step state (contents.drop position)) := by
  induction hleft : contents.length - position using Nat.strong_induction_on
    generalizing state position with
  | _ left ih =>
    by_cases hlt : position < contents.length
    · have hbody : (childLoop inWords contents).body state position = _ :=
        iterate_eq hlength hstep hposition
      rw [CursorLoop.run_of_lt hlt, hbody, walk_of_lt state hlt]
      cases hparse : BoxHeader.parse (contents.drop position) with
      | error error => rfl
      | ok header =>
        have hbounds := BoxHeader.parse_bounds hparse
        rw [List.length_drop] at hbounds
        simp only [bind, Except.bind]
        cases step state header ((contents.drop position).take header.size) with
        | error error => rfl
        | ok next =>
          refine ih (contents.length - (position + header.size)) ?_ next ?_ rfl
          · omega
          · omega
    · have hnil : contents.drop position = [] := List.drop_of_length_le (not_lt.1 hlt)
      rw [CursorLoop.run_of_not_lt hlt, hnil, walk]
      rfl

end Box
end FragmentedMp4

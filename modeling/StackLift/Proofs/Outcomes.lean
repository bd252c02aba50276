/-
# What a lift comes to

A lift succeeds, or refuses the function, or meets the header of a loop after its body was walked.
The last happens only where control gets to the body around the header.

* `Lifter.lift_cases` : nothing else happens;
* `Lifter.HeadersFirst` : headers are stepped before bodies;
* `Lifter.headers_before_bodies` : when that is so, and where it is not.
-/
import Mathlib.Data.List.Pairwise
import StackLift.Proofs.Stopping

namespace StackLift

/-! ## Nothing else happens -/

/-- A lift succeeds, or refuses the function with an error, or finds the body of a loop walked
before its header. -/
theorem Lifter.lift_cases {l : Listing} {c : Code} (hsize : l.IsAddressable)
    (hbuild : l.build = .ok c) (options : LiftOptions) :
    (∃ s, (Lifter.ofCode c options).lift = .ok () s) ∨
    (∃ e s, (Lifter.ofCode c options).lift = .error (.error e) s) ∨
    ∃ body header s, (Lifter.ofCode c options).lift =
      .error (.fault (.inconsistent (.bodyBeforeHeader body header))) s := by
  have hc := Listing.sound_of_build hsize hbuild
  cases hlift : (Lifter.ofCode c options).lift with
  | ok u s => exact .inl ⟨s, rfl⟩
  | error stop s =>
    refine .inr ?_
    rcases Lifter.lift_error hc hlift with hhalts | ⟨e, done, g, b, slot, rfl, -⟩
    · cases hhalts with
      | refuses h =>
        obtain ⟨e, rfl, -⟩ := h
        exact .inl ⟨e, s, rfl⟩
      | @early i o hi hfor hreach haround => exact .inr ⟨i.next, o, s, rfl⟩
    · exact .inl ⟨.stack e, s, rfl⟩

/-- A call with an argument at the end of its range, in a loop that goes backwards. -/
def Listing.wild : Listing where
  args := ["x"]
  code := "CALL_FUNCTION 9223372036854710273\nFOR_ITER -6\nJUMP_FORWARD -9\n"

/-- One of the three happens to it, whether dead blocks are kept or not. -/
theorem Lifter.lift_wild : Listing.wild.IsAddressable ∧ ∃ c, Listing.wild.build = .ok c ∧
    ∀ keepDead, (∃ s, (Lifter.ofCode c { keepDead }).lift = .ok () s) ∨
      (∃ e s, (Lifter.ofCode c { keepDead }).lift = .error (.error e) s) ∨
      ∃ body header s, (Lifter.ofCode c { keepDead }).lift =
        .error (.fault (.inconsistent (.bodyBeforeHeader body header))) s := by
  have hsize : Listing.wild.IsAddressable := by decide +kernel
  have hbuilds : Listing.wild.build.isOk = true := by decide +kernel
  cases hbuild : Listing.wild.build with
  | error e =>
    rw [hbuild] at hbuilds
    cases hbuilds
  | ok c => exact ⟨hsize, c, rfl, fun keepDead => Lifter.lift_cases hsize hbuild { keepDead }⟩

/-! ## Headers and bodies -/

/-- Whether nothing was stepped in the body of a loop before its header was. -/
def Lifter.HeadersFirst (s : Lifter) : Prop :=
  s.steps.Pairwise fun x y => y.2.op.effect? = some .forLoop → x.1 ≠ blockName y.2.next

/-- Headers are stepped before bodies if the blocks are walked in such an order. -/
theorem Code.Sound.pairwise_stepsOf {c : Code} (hc : c.Sound) {done : List Int}
    (hfirst : done.Pairwise fun p o =>
      ∀ i ∈ c.blockRun o, i.op.effect? = some .forLoop → i.next ≠ p) :
    (c.stepsOf done).Pairwise fun x y =>
      y.2.op.effect? = some .forLoop → x.1 ≠ blockName y.2.next := by
  refine List.pairwise_flatMap.2 ⟨fun o _ => ?_, ?_⟩
  · -- within a block all steps have its name, and the body is behind it
    refine List.pairwise_of_forall_mem_list ?_
    rintro x hx y hy - heq
    obtain ⟨i, -, rfl⟩ := List.mem_map.1 hx
    obtain ⟨j, hj, rfl⟩ := List.mem_map.1 hy
    have hnext : o = j.next := blockName_inj heq
    exact Int.ne_of_lt (hc.lt_next_of_mem_runFrom hj) hnext
  · refine hfirst.imp fun {p o} hpo x hx y hy hfor heq => ?_
    obtain ⟨i, -, rfl⟩ := List.mem_map.1 hx
    obtain ⟨j, hj, rfl⟩ := List.mem_map.1 hy
    exact hpo j hj hfor (blockName_inj heq).symm

/-- A lift that succeeds steps headers before bodies.  One that finds a body walked before its
header met a loop the body of which control reaches around the header. -/
theorem Lifter.headers_before_bodies {l : Listing} {c : Code} (hsize : l.IsAddressable)
    (hbuild : l.build = .ok c) (options : LiftOptions) :
    (∀ s, (Lifter.ofCode c options).lift = .ok () s → s.HeadersFirst) ∧
    ∀ body header s, (Lifter.ofCode c options).lift =
        .error (.fault (.inconsistent (.bodyBeforeHeader body header))) s →
      ∃ i ∈ c.blockRun header, i.op.effect? = some .forLoop ∧ i.next = body ∧
        c.Reaches i.offset ∧ c.ReachesAround i.offset body := by
  have hc := Listing.sound_of_build hsize hbuild
  constructor
  · intro s hlift
    obtain ⟨-, done, g, h⟩ := Lifter.lift_ok hc hlift
    unfold Lifter.HeadersFirst
    rw [h.steps_eq]
    exact hc.pairwise_stepsOf h.traversed.headers_first
  · intro body header s hlift
    rcases Lifter.lift_error hc hlift with hhalts | ⟨e, done, g, b, slot, hstop, -⟩
    · cases hhalts with
      | refuses h =>
        obtain ⟨e, hstop, -⟩ := h
        cases hstop
      | @early i o hi hfor hreach haround => exact ⟨i, hi, hfor, rfl, hreach, haround⟩
    · cases hstop

/-- A loop that is entered at its body. -/
def Listing.shortcut : Listing where
  name := "f"
  code := "JUMP_ABSOLUTE 6\nFOR_ITER 0\nBINARY_ADD\nJUMP_ABSOLUTE 3\n"

theorem Listing.stops_shortcut : Listing.shortcut.stops
    (· == .fault (.inconsistent (.bodyBeforeHeader 6 3))) = true := by
  simp only [Listing.stops, Lifter.lift, Lift.all, Code.getElem?_index]
  decide +kernel

/-- The body of a loop is walked before its header if control gets there first. -/
theorem Lifter.lift_shortcut : ∃ c s, Listing.shortcut.build = .ok c ∧
    (Lifter.ofCode c {}).lift = .error (.fault (.inconsistent (.bodyBeforeHeader 6 3))) s := by
  obtain ⟨c, stop, s, hbuild, hlift, hcheck⟩ := Listing.exists_of_stops Listing.stops_shortcut
  rw [eq_of_beq hcheck] at hlift
  exact ⟨c, s, hbuild, hlift⟩

/-- Control gets to the body of that loop without its header. -/
theorem Lifter.around_shortcut : Listing.shortcut.IsAddressable ∧ ∃ c,
    Listing.shortcut.build = .ok c ∧ ∃ i ∈ c.blockRun 3, i.op.effect? = some .forLoop ∧
      i.next = 6 ∧ c.Reaches i.offset ∧ c.ReachesAround i.offset 6 := by
  obtain ⟨c, stop, s, hbuild, hlift, hcheck⟩ := Listing.exists_of_stops Listing.stops_shortcut
  rw [eq_of_beq hcheck] at hlift
  have hsize : Listing.shortcut.IsAddressable := by decide +kernel
  exact ⟨hsize, c, hbuild, (Lifter.headers_before_bodies hsize hbuild {}).2 6 3 s hlift⟩

end StackLift

import HMC.Machine.Ledger

/-!
# Code that leaves at the first failure

Set-up code makes one resource after another, calls other functions in between, and leaves with
a `goto` or a `return` at the first failure. It is a list of steps here, with what the interface
answers as a parameter. `run_spec` is the rule for such a list: if it makes no resource twice and
none after one that is made from it, then it breaks no rule of the ledger, owns what it holds, and
holds what the steps before the first failure have made.

That a list is legal does not depend on the answers of the interface, so it is checked once, by
evaluation, for the whole list (`legal_of_slots`); the rule then speaks of all failures at once, and
a function that is made of several lists is handled by using it for each of them. What happens to
the resources after a failure is not the matter of the list but of the place where it leaves to,
which is the `exit` of the step that failed.
-/

namespace HMC.Machine

variable {ι γ ε : Type*} [DecidableEq ι] (uses : ι → List ι)

/-- A step of such code: make a resource, get an event that is given back at once, or anything else
that may fail; and where to go on when it fails. -/
inductive SetupOp (ι γ ε : Type*)
  | make (i : ι) (exit : ε)
  | event (i : ι) (c : γ) (exit : ε)
  | call (c : γ) (exit : ε)

/-- What the interface answers. -/
structure Answers (ι γ : Type*) where
  made : ι → Bool
  done : γ → Bool

namespace SetupOp

def exit : SetupOp ι γ ε → ε
  | .make _ e | .event _ _ e | .call _ e => e

/-- The pointer that a step may set. -/
def slot : SetupOp ι γ ε → Option ι
  | .make i _ | .event i _ _ => some i
  | .call _ _ => none

/-- The pointer that a step that succeeds leaves set. -/
def leaves : SetupOp ι γ ε → Option ι
  | .make i _ => some i
  | .event _ _ _ | .call _ _ => none

variable (a : Answers ι γ)

def succeeds : SetupOp ι γ ε → Bool
  | .make i _ => a.made i
  | .event i c _ => a.made i && a.done c
  | .call c _ => a.done c

/-- One step: an event is given back whether or not it is the expected one. -/
def exec : SetupOp ι γ ε → Holder ι → Holder ι
  | .make i _, x => if a.made i then x.make uses i else x
  | .event i _ _, x => if a.made i then (x.make uses i).destroy i else x
  | .call _ _, x => x

/-- A list of steps: where it left, if it did, and what it holds. -/
def run : List (SetupOp ι γ ε) → Holder ι → Option ε × Holder ι
  | [], x => (none, x)
  | op :: ops, x =>
    let x := op.exec uses a x
    if op.succeeds a then run ops x else (some op.exit, x)

/-- The list can run in a record that holds the pointers `held`: no pointer is set twice, and none
is set after one that is made from it. -/
def Legal : List ι → List (SetupOp ι γ ε) → Prop
  | _, [] => True
  | held, op :: ops =>
    (∀ i, op.slot = some i → i ∉ held ∧ i ∉ uses i ∧ ∀ j ∈ held, i ∉ uses j) ∧
      Legal (held ++ op.leaves.toList) ops

variable {uses} {a} {others : ℕ → Option (Resource ι)} {x : Holder ι} {held : List ι}
  {ops : List (SetupOp ι γ ε)}

theorem exec_spec {op : SetupOp ι γ ε} (h : Owns uses others x)
    (hheld : ∀ j, (x.ptr j).isSome ↔ j ∈ held)
    (hop : ∀ i, op.slot = some i → i ∉ held ∧ i ∉ uses i ∧ ∀ j ∈ held, i ∉ uses j) :
    Owns uses others (op.exec uses a x) ∧
      (op.exec uses a x).ledger.misuses = x.ledger.misuses ∧
      ∀ j, ((op.exec uses a x).ptr j).isSome ↔
        j ∈ held ∨ op.succeeds a = true ∧ op.leaves = some j := by
  have hmake : ∀ i, op.slot = some i → x.ptr i = none ∧
      (Owns uses others (x.make uses i) ∧
        (x.make uses i).ledger.misuses = x.ledger.misuses) := by
    intro i hi
    obtain ⟨hni, hself, hj⟩ := hop i hi
    have hfree : x.ptr i = none := by
      rw [← Option.not_isSome_iff_eq_none, hheld]
      exact hni
    exact ⟨hfree, h.make hfree hself fun j hjs => hj j ((hheld j).mp hjs)⟩
  rcases op with ⟨i, e⟩ | ⟨i, c, e⟩ | ⟨c, e⟩
  · obtain ⟨-, hown, hmis⟩ := hmake i rfl
    by_cases hm : a.made i
    · simp only [exec, succeeds, leaves, hm, if_true]
      refine ⟨hown, hmis, fun j => ?_⟩
      simp only [Holder.make, Function.update_apply]
      split_ifs with hji
      · simp [hji]
      · simp [hheld, Ne.symm hji]
    · simp only [exec, succeeds, leaves, hm]
      exact ⟨h, rfl, fun j => by simp [hheld]⟩
  · obtain ⟨hfree, hown, hmis⟩ := hmake i rfl
    by_cases hm : a.made i
    · simp only [exec, succeeds, leaves, hm, if_true]
      -- the event is the only pointer that came and went
      have hptr : ((x.make uses i).destroy i).ptr = x.ptr := by
        rw [Holder.destroy_ptr, Holder.make, Function.update_idem, ← hfree,
          Function.update_eq_self]
      refine ⟨hown.destroy i, ?_, fun j => by rw [hptr, hheld]; simp⟩
      have hnot : (x.make uses i).ledger.inUse x.ledger.next = false := by
        rw [Bool.eq_false_iff]
        intro hin
        obtain ⟨j, hj, hij⟩ := (hown.inUse_iff (i := i) (by simp [Holder.make])).mp hin
        simp only [Holder.make, Function.update_apply] at hj
        split_ifs at hj with hji
        · exact (hop i rfl).2.1 (hji ▸ hij)
        · exact (hop i rfl).2.2 j ((hheld j).mp hj) hij
      rw [← hmis]
      have hi : (x.make uses i).ptr i = some x.ledger.next := by simp [Holder.make]
      obtain ⟨r, hr, -⟩ := hown.held i _ hi
      simp [Holder.destroy, hi, Ledger.release, hr, hnot]
    · simp only [exec, succeeds, leaves, hm]
      exact ⟨h, rfl, fun j => by simp [hheld]⟩
  · exact ⟨h, rfl, fun j => by simp [exec, succeeds, leaves, hheld]⟩

/-- **Running a legal list.** No rule is broken, the record owns what it holds, and these are the
pointers of the steps before the first failure. By induction on the list, from what one step does
(`exec_spec`); an event that is given back at once leaves the record as it was. -/
theorem run_spec (h : Owns uses others x) (hheld : ∀ j, (x.ptr j).isSome ↔ j ∈ held)
    (hlegal : Legal uses held ops) :
    Owns uses others (run uses a ops x).2 ∧
      (run uses a ops x).2.ledger.misuses = x.ledger.misuses ∧
      ∀ j, ((run uses a ops x).2.ptr j).isSome ↔
        j ∈ held ++ (ops.takeWhile (succeeds a)).filterMap leaves := by
  induction ops generalizing x held with
  | nil => exact ⟨h, rfl, fun j => by simp [run, hheld]⟩
  | cons op ops ih =>
    obtain ⟨hop, hlegal⟩ := hlegal
    obtain ⟨hown, hmis, hptr⟩ := exec_spec (a := a) h hheld hop
    by_cases hs : op.succeeds a
    · simp only [run, hs, if_true, List.takeWhile_cons, List.filterMap_cons]
      have hptr' : ∀ j, ((op.exec uses a x).ptr j).isSome ↔ j ∈ held ++ op.leaves.toList := by
        intro j
        rw [hptr, List.mem_append, Option.mem_toList]
        simp [hs]
      obtain ⟨hown', hmis', hmem⟩ := ih hown hptr' hlegal
      refine ⟨hown', hmis'.trans hmis, fun j => ?_⟩
      rw [hmem j]
      rcases op.leaves with _ | k <;> simp
    · simp only [run, hs, Bool.false_eq_true, if_false, List.takeWhile_cons]
      refine ⟨hown, hmis, fun j => ?_⟩
      rw [hptr]
      simp [hs]

omit [DecidableEq ι] in
/-- A list is legal when its pointers are new and different, and none is made from a later one. -/
theorem legal_of_slots (hnew : ∀ i ∈ ops.filterMap slot, i ∉ held ∧ ∀ j ∈ held, i ∉ uses j)
    (hself : ∀ i, i ∉ uses i) (hnodup : (ops.filterMap slot).Nodup)
    (horder : (ops.filterMap slot).Pairwise fun i j => j ∉ uses i) : Legal uses held ops := by
  induction ops generalizing held with
  | nil => trivial
  | cons op ops ih =>
    rcases hs : op.slot with _ | i
    · rw [List.filterMap_cons_none hs] at hnew hnodup horder
      have hl : op.leaves = none := by
        rcases op with _ | _ | _
        · cases hs
        · rfl
        · rfl
      refine ⟨fun i hi => ?_, ?_⟩
      · rw [hs] at hi
        cases hi
      · rw [hl, Option.toList_none, List.append_nil]
        exact ih hnew hnodup horder
    · rw [List.filterMap_cons_some hs] at hnew hnodup horder
      rw [List.nodup_cons] at hnodup
      rw [List.pairwise_cons] at horder
      rw [List.forall_mem_cons] at hnew
      have hl : ∀ k, op.leaves = some k → k = i := by
        rcases op with ⟨k, e⟩ | ⟨k, c, e⟩ | _
        · rintro _ ⟨⟩
          exact Option.some.inj hs
        · exact nofun
        · exact nofun
      constructor
      · intro k hk
        obtain rfl : i = k := Option.some.inj (hs.symm.trans hk)
        exact ⟨hnew.1.1, hself i, hnew.1.2⟩
      · refine ih (fun k hk => ?_) hnodup.2 horder.2
        have hki : k ≠ i := by
          rintro rfl
          exact hnodup.1 hk
        constructor
        · rw [List.mem_append, Option.mem_toList]
          rintro (hmem | hmem)
          · exact (hnew.2 k hk).1 hmem
          · exact hki (hl k hmem)
        · intro j hj
          rw [List.mem_append, Option.mem_toList] at hj
          rcases hj with hj | hj
          · exact (hnew.2 k hk).2 j hj
          · rw [hl j hj]
            exact horder.1 k hk

/-- Where a list leaves does not depend on what is held. -/
theorem run_fst (x : Holder ι) :
    (run uses a ops x).1 = ((ops.dropWhile (succeeds a)).head?).map exit := by
  induction ops generalizing x with
  | nil => rfl
  | cons op ops ih =>
    by_cases hs : op.succeeds a
    · simp only [run, hs, if_true, List.dropWhile_cons]
      exact ih _
    · simp [run, hs]

/-- A list that does not leave leaves all its pointers set. -/
theorem takeWhile_of_run_fst {x : Holder ι} (h : (run uses a ops x).1 = none) :
    ops.takeWhile (succeeds a) = ops := by
  rw [run_fst, Option.map_eq_none_iff, List.head?_eq_none_iff] at h
  have happ := List.takeWhile_append_dropWhile (p := succeeds a) (l := ops)
  rwa [h, List.append_nil] at happ

end SetupOp

end HMC.Machine

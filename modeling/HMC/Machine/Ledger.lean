import Mathlib.Data.List.Basic
import Mathlib.Logic.Function.Basic
import Mathlib.Tactic.Common

/-!
# Ledgers of resources

A ledger is the account of an interface whose resources are made from other ones and have to be
released by hand: which handles are live, which of them each one was made from, and what was done
against the rules. The rules are that a handle is used or released only while it is live, and that
no resource is released before those that were made from it.

A holder is a record of pointers into a ledger, and `Owns` says that its pointers are all that was
added to the ledger. The operations of a holder keep this (`Owns.make`, `Owns.destroy`), so
a record that destroys everything it may hold gives the ledger back as it was, and the rules that
it breaks are those that the order of its list breaks (`Owns.destroyAll`).

A misuse is not an error of the model but an entry of the ledger, because the code goes on after it;
a result that no rule is broken says that the list of misuses has not grown. That a resource is
still in use is decided within one record (`Owns.inUse_iff`): nothing of the others was made
from what the record holds. So the order in which a destructor releases its members is all that has
to be looked at.
-/

namespace HMC.Machine

variable {ι : Type*}

/-- A live resource: the pointer that it was made for, and the handles that it was made from. -/
structure Resource (ι : Type*) where
  label : ι
  needs : List ℕ

/-- A handle was used or released that is not live, or a resource was released while another one
that was made from it was live. -/
inductive Misuse (ι : Type*)
  | dead (h : ℕ)
  | inUse (i : ι)
  deriving DecidableEq

/-- The resources of an interface; handles are numbered as they are made. -/
structure Ledger (ι : Type*) where
  next : ℕ
  live : ℕ → Option (Resource ι)
  misuses : List (Misuse ι)
  fresh : ∀ h, next ≤ h → live h = none
  older : ∀ h r, live h = some r → ∀ n ∈ r.needs, n < h

namespace Ledger

def empty : Ledger ι := ⟨0, fun _ => none, [], fun _ _ => rfl, fun _ _ hr => by cases hr⟩

variable (L : Ledger ι)

theorem lt_of_live {L : Ledger ι} {h : ℕ} (hl : (L.live h).isSome) : h < L.next := by
  by_contra hge
  rw [L.fresh h (by omega)] at hl
  cases hl

def make (i : ι) (needs : List ℕ) : Ledger ι where
  next := L.next + 1
  live := Function.update L.live L.next (some ⟨i, needs.filter fun n => (L.live n).isSome⟩)
  misuses := L.misuses ++ (needs.filter fun n => (L.live n).isNone).map .dead
  fresh h hh := by
    rw [Function.update_of_ne (by omega)]
    exact L.fresh h (by omega)
  older h r hr n hn := by
    by_cases hh : h = L.next
    · subst hh
      rw [Function.update_self] at hr
      cases hr
      exact lt_of_live (L := L) (List.mem_filter.mp hn).2
    · rw [Function.update_of_ne hh] at hr
      exact L.older h r hr n hn

/-- Some live resource was made from this one. -/
def inUse (h : ℕ) : Bool :=
  (List.range L.next).any fun g => (L.live g).any fun r => decide (h ∈ r.needs)

def release (h : ℕ) : Ledger ι where
  next := L.next
  live := Function.update L.live h none
  misuses := L.misuses ++
    match L.live h with
    | none => [.dead h]
    | some r => if L.inUse h then [.inUse r.label] else []
  fresh g hg := by
    by_cases hh : g = h
    · rw [hh, Function.update_self]
    · rw [Function.update_of_ne hh, L.fresh g hg]
  older g r hr := by
    by_cases hh : g = h
    · rw [hh, Function.update_self] at hr
      cases hr
    · rw [Function.update_of_ne hh] at hr
      exact L.older g r hr

theorem inUse_iff {L : Ledger ι} {h : ℕ} :
    L.inUse h = true ↔ ∃ g r, L.live g = some r ∧ h ∈ r.needs := by
  simp only [inUse, List.any_eq_true, List.mem_range, Option.any_eq_true, decide_eq_true_eq]
  constructor
  · rintro ⟨g, -, r, hr, hn⟩
    exact ⟨g, r, hr, hn⟩
  · rintro ⟨g, r, hr, hn⟩
    exact ⟨g, lt_of_live (by simp [hr]), r, hr, hn⟩

end Ledger

/-! ### Holders -/

/-- A record of pointers to resources. -/
structure Holder (ι : Type*) where
  ledger : Ledger ι
  ptr : ι → Option ℕ

variable [DecidableEq ι] (uses : ι → List ι)

namespace Holder

variable (x : Holder ι)

/-- Make a resource from those of the record that it uses. -/
def make (i : ι) : Holder ι :=
  ⟨x.ledger.make i ((uses i).filterMap x.ptr), Function.update x.ptr i (some x.ledger.next)⟩

/-- Release a resource, if there is one, and clear its pointer. -/
def destroy (i : ι) : Holder ι :=
  match x.ptr i with
  | none => x
  | some h => ⟨x.ledger.release h, Function.update x.ptr i none⟩

def destroyAll (is : List ι) : Holder ι := is.foldl destroy x

end Holder

/-- The record points to all resources of the ledger but `others`, none of which was made from
what it holds. Each resource is held by one pointer (`inj`), bears its name, and was made from the
resources that this pointer uses, as far as the record still holds them (`held`). -/
structure Owns (others : ℕ → Option (Resource ι)) (x : Holder ι) : Prop where
  inj : ∀ i j h, x.ptr i = some h → x.ptr j = some h → i = j
  added : ∀ i h, x.ptr i = some h →
    h < x.ledger.next ∧ others h = none ∧ ∀ g r, others g = some r → h ∉ r.needs
  held : ∀ i h, x.ptr i = some h → ∃ r, x.ledger.live h = some r ∧ r.label = i ∧
    ∀ j n, x.ptr j = some n → (n ∈ r.needs ↔ j ∈ uses i)
  rest : ∀ h, (∀ i, x.ptr i ≠ some h) → x.ledger.live h = others h

namespace Owns

variable {uses} {others : ℕ → Option (Resource ι)} {x : Holder ι} {i : ι} {is : List ι}

omit [DecidableEq ι] in
/-- An empty record owns nothing. -/
theorem nothing (L : Ledger ι) : Owns uses L.live ⟨L, fun _ => none⟩ where
  inj _ _ _ h := by cases h
  added _ _ h := by cases h
  held _ _ h := by cases h
  rest _ _ := rfl

/-- A resource that comes from elsewhere is taken over. -/
theorem adopt (L : Ledger ι) (needs : List ℕ) (hself : i ∉ uses i) :
    Owns uses L.live
      ⟨L.make i needs, Function.update (fun _ => none) i (some L.next)⟩ := by
  have hptr : ∀ j h, Function.update (fun _ => none) i (some L.next) j = some h →
      j = i ∧ h = L.next := by
    intro j h hj
    rw [Function.update_apply] at hj
    split_ifs at hj with hji
    exact ⟨hji, (Option.some.inj hj).symm⟩
  constructor
  · intro j k h hj hk
    rw [(hptr j h hj).1, (hptr k h hk).1]
  · intro j h hj
    obtain ⟨-, rfl⟩ := hptr j h hj
    refine ⟨Nat.lt_succ_self _, L.fresh _ (Nat.le_refl _), fun g r hr hn => ?_⟩
    have := L.older g r hr _ hn
    have := Ledger.lt_of_live (L := L) (h := g) (by simp [hr])
    omega
  · intro j h hj
    obtain ⟨rfl, rfl⟩ := hptr j h hj
    refine ⟨_, Function.update_self .., rfl, fun k n hk => ?_⟩
    obtain ⟨rfl, rfl⟩ := hptr k n hk
    refine iff_of_false (fun hn => ?_) hself
    have := Ledger.lt_of_live (L := L) (List.mem_filter.mp hn).2
    omega
  · intro h hh
    have hn : h ≠ L.next := by
      rintro rfl
      exact hh i (by simp)
    exact Function.update_of_ne hn _ _

omit [DecidableEq ι] in
theorem live_eq (h : Owns uses others x) (hnone : ∀ i, x.ptr i = none) :
    x.ledger.live = others := by
  funext g
  exact h.rest g fun i => by rw [hnone i]; exact nofun

omit [DecidableEq ι] in
/-- A resource of the ledger that the record does not hold is one of the others. -/
theorem others_of_live (h : Owns uses others x) {g : ℕ} {r : Resource ι}
    (hr : x.ledger.live g = some r) (hg : ∀ i, x.ptr i ≠ some g) : others g = some r :=
  (h.rest g hg).symm.trans hr

/-- A resource is made for a free pointer, from resources that are there. -/
theorem make (h : Owns uses others x) (hfree : x.ptr i = none) (hself : i ∉ uses i)
    (hnew : ∀ j, (x.ptr j).isSome → i ∉ uses j) :
    Owns uses others (x.make uses i) ∧
      (x.make uses i).ledger.misuses = x.ledger.misuses := by
  have hlive : ∀ n ∈ (uses i).filterMap x.ptr, (x.ledger.live n).isSome := by
    intro n hn
    obtain ⟨j, -, hj⟩ := List.mem_filterMap.mp hn
    obtain ⟨r, hr, -⟩ := h.held j n hj
    simp [hr]
  have hne : ∀ j g, x.ptr j = some g → g ≠ x.ledger.next := fun j g hj =>
    Nat.ne_of_lt (h.added j g hj).1
  have hptr : ∀ j g, (x.make uses i).ptr j = some g →
      j = i ∧ g = x.ledger.next ∨ j ≠ i ∧ x.ptr j = some g := by
    intro j g hj
    simp only [Holder.make, Function.update_apply] at hj
    split_ifs at hj with hji
    · exact .inl ⟨hji, (Option.some.inj hj).symm⟩
    · exact .inr ⟨hji, hj⟩
  constructor
  · constructor
    · intro j k g hj hk
      rcases hptr j g hj with ⟨hji, hjg⟩ | ⟨-, hj'⟩ <;>
        rcases hptr k g hk with ⟨hki, hkg⟩ | ⟨-, hk'⟩
      · rw [hji, hki]
      · exact absurd hjg (hne k g hk')
      · exact absurd hkg (hne j g hj')
      · exact h.inj j k g hj' hk'
    · intro j g hj
      rcases hptr j g hj with ⟨-, rfl⟩ | ⟨-, hj'⟩
      · have hothers : ∀ g' r, others g' = some r → x.ledger.live g' = some r := by
          intro g' r hr
          rw [← hr]
          refine h.rest g' fun k hk => ?_
          rw [(h.added k g' hk).2.1] at hr
          cases hr
        refine ⟨Nat.lt_succ_self _, ?_, fun g' r hr hn => ?_⟩
        · rw [← h.rest _ fun k hk => hne k _ hk rfl]
          exact x.ledger.fresh _ (Nat.le_refl _)
        · have := x.ledger.older g' r (hothers g' r hr) _ hn
          have := Ledger.lt_of_live (L := x.ledger) (h := g') (by simp [hothers g' r hr])
          omega
      · obtain ⟨hlt, hrest⟩ := h.added j g hj'
        exact ⟨Nat.lt_succ_of_lt hlt, hrest⟩
    · intro j g hj
      rcases hptr j g hj with ⟨rfl, rfl⟩ | ⟨-, hj'⟩
      · refine ⟨_, Function.update_self .., rfl, fun k n hk => ?_⟩
        rw [List.filter_eq_self.mpr hlive, List.mem_filterMap]
        rcases hptr k n hk with ⟨rfl, rfl⟩ | ⟨-, hk'⟩
        · refine iff_of_false ?_ hself
          rintro ⟨m, -, hm⟩
          exact hne m _ hm rfl
        · constructor
          · rintro ⟨m, hm, hmn⟩
            exact h.inj k m n hk' hmn ▸ hm
          · intro hmem
            exact ⟨k, hmem, hk'⟩
      · obtain ⟨r, hr, hlabel, hneeds⟩ := h.held j g hj'
        refine ⟨r, ?_, hlabel, fun k n hk => ?_⟩
        · rw [← hr]
          exact Function.update_of_ne (hne j g hj') _ _
        · rcases hptr k n hk with ⟨hki, rfl⟩ | ⟨-, hk'⟩
          · refine iff_of_false (fun hn => ?_) (hki ▸ hnew j (by simp [hj']))
            have := x.ledger.older g r hr _ hn
            have := (h.added j g hj').1
            omega
          · exact hneeds k n hk'
    · intro g hg
      have hgn : g ≠ x.ledger.next := by
        rintro rfl
        exact hg i (Function.update_self ..)
      rw [← h.rest g fun j hj => hg j ?_]
      · exact Function.update_of_ne hgn _ _
      · rw [← hj]
        refine Function.update_of_ne ?_ _ _
        rintro rfl
        rw [hfree] at hj
        cases hj
  · have hnil : ((uses i).filterMap x.ptr).filter (fun n => (x.ledger.live n).isNone) = [] := by
      rw [List.filter_eq_nil_iff]
      intro n hn
      rw [Option.isNone_iff_eq_none, ← Option.not_isSome_iff_eq_none, not_not]
      exact hlive n hn
    simp only [Holder.make, Ledger.make, hnil, List.map_nil, List.append_nil]

omit [DecidableEq ι] in
/-- The resource of a pointer is in use while another pointer of the record that uses it is set. -/
theorem inUse_iff (h : Owns uses others x) {g : ℕ} (hi : x.ptr i = some g) :
    x.ledger.inUse g = true ↔ ∃ j, (x.ptr j).isSome ∧ i ∈ uses j := by
  rw [Ledger.inUse_iff]
  constructor
  · rintro ⟨g', r, hr, hn⟩
    by_cases hheld : ∃ j, x.ptr j = some g'
    · obtain ⟨j, hj⟩ := hheld
      obtain ⟨r', hr', -, hneeds⟩ := h.held j g' hj
      obtain rfl := Option.some.inj (hr.symm.trans hr')
      exact ⟨j, by simp [hj], (hneeds i g hi).mp hn⟩
    · have hr' := h.others_of_live hr fun j hj => hheld ⟨j, hj⟩
      exact absurd hn ((h.added i g hi).2.2 g' r hr')
  · rintro ⟨j, hj, hij⟩
    obtain ⟨g', hg'⟩ := Option.isSome_iff_exists.mp hj
    obtain ⟨r, hr, -, hneeds⟩ := h.held j g' hg'
    exact ⟨g', r, hr, (hneeds i g hi).mpr hij⟩

theorem destroy (h : Owns uses others x) (i : ι) : Owns uses others (x.destroy i) := by
  unfold Holder.destroy
  split
  · exact h
  · rename_i g hg
    have hptr : ∀ j k, Function.update x.ptr i none j = some k → x.ptr j = some k ∧ j ≠ i := by
      intro j k hj
      rw [Function.update_apply] at hj
      split_ifs at hj with hji
      exact ⟨hj, hji⟩
    constructor
    · exact fun j k l hj hk => h.inj j k l (hptr j l hj).1 (hptr k l hk).1
    · exact fun j k hj => h.added j k (hptr j k hj).1
    · intro j k hj
      obtain ⟨hj', hji⟩ := hptr j k hj
      obtain ⟨r, hr, hlabel, hneeds⟩ := h.held j k hj'
      refine ⟨r, ?_, hlabel, fun l n hl => hneeds l n (hptr l n hl).1⟩
      rw [← hr]
      refine Function.update_of_ne ?_ _ _
      rintro rfl
      exact hji (h.inj j i k hj' hg)
    · intro k hk
      by_cases hkg : k = g
      · subst hkg
        rw [(h.added i k hg).2.1]
        exact Function.update_self ..
      · rw [← h.rest k fun j hj => hk j ?_]
        · exact Function.update_of_ne hkg _ _
        · rw [← hj]
          refine Function.update_of_ne ?_ _ _
          rintro rfl
          exact hkg (Option.some.inj (hj.symm.trans hg))

end Owns

@[simp] theorem Holder.destroy_ptr (x : Holder ι) (i : ι) :
    (x.destroy i).ptr = Function.update x.ptr i none := by
  unfold Holder.destroy
  split
  · rename_i h
    rw [← h, Function.update_eq_self]
  · rfl

/-- The rules that are broken by releasing a record in the order of this list: a pointer stands
before one that was made from it. -/
def early (p : ι → Option ℕ) : List ι → List (Misuse ι)
  | [] => []
  | i :: is =>
    (if (p i).isSome ∧ is.any (fun j => (p j).isSome && decide (i ∈ uses j)) then [.inUse i]
      else []) ++ early p is

/-- Pointers that stand before all that were made from them break no rule. -/
theorem early_append {uses : ι → List ι} {p : ι → Option ℕ} {is js : List ι}
    (h : is.Pairwise fun i j => i ∉ uses j) (hjs : ∀ i ∈ is, ∀ j ∈ js, i ∉ uses j) :
    early uses p (is ++ js) = early uses p js := by
  induction is with
  | nil => rfl
  | cons i is ih =>
    obtain ⟨hi, his⟩ := List.pairwise_cons.mp h
    rw [List.cons_append, early, ih his fun k hk => hjs k (List.mem_cons_of_mem i hk), if_neg,
      List.nil_append]
    rintro ⟨-, hany⟩
    obtain ⟨j, hj, hij⟩ := List.any_eq_true.mp hany
    have hmem : i ∈ uses j := by simpa using (Bool.and_eq_true_iff.mp hij).2
    rcases List.mem_append.mp hj with hj | hj
    · exact hi j hj hmem
    · exact hjs i List.mem_cons_self j hj hmem

theorem early_congr {uses : ι → List ι} {p q : ι → Option ℕ} {is : List ι}
    (h : ∀ i ∈ is, p i = q i) : early uses p is = early uses q is := by
  induction is with
  | nil => rfl
  | cons i is ih =>
    rw [List.forall_mem_cons] at h
    have hany : (is.any fun j => (p j).isSome && decide (i ∈ uses j)) =
        is.any fun j => (q j).isSome && decide (i ∈ uses j) := by
      rw [Bool.eq_iff_iff]
      simp only [List.any_eq_true]
      exact exists_congr fun j => and_congr_right fun hj => by rw [h.2 j hj]
    rw [early, early, ih h.2, h.1, hany]

namespace Owns

variable {uses} {others : ℕ → Option (Resource ι)} {x : Holder ι} {i : ι} {is : List ι}

/-- **Releasing a record.** When the list names every pointer that is set, the ledger is what it
was before the record, and the rules broken are those of the order of the list. By induction on the
list: each release keeps the ownership of what is left, and breaks a rule exactly when a pointer
that was made from it is still to come. -/
theorem destroyAll (h : Owns uses others x) (hcover : ∀ i, (x.ptr i).isSome → i ∈ is)
    (hnodup : is.Nodup) (hself : ∀ i, i ∉ uses i) :
    (∀ i, (x.destroyAll is).ptr i = none) ∧ (x.destroyAll is).ledger.live = others ∧
      (x.destroyAll is).ledger.misuses = x.ledger.misuses ++ early uses x.ptr is := by
  induction is generalizing x with
  | nil =>
    have hnone : ∀ i, x.ptr i = none := by
      intro i
      rw [← Option.not_isSome_iff_eq_none]
      exact fun hi => List.not_mem_nil (hcover i hi)
    exact ⟨hnone, h.live_eq hnone, (List.append_nil _).symm⟩
  | cons i is ih =>
    rw [List.nodup_cons] at hnodup
    have hrest : ∀ j, ((x.destroy i).ptr j).isSome → j ∈ is := by
      intro j hj
      rw [Holder.destroy_ptr, Function.update_apply] at hj
      split_ifs at hj with hji
      · cases hj
      · exact (List.mem_cons.mp (hcover j hj)).resolve_left hji
    obtain ⟨hptr, hlive, hmis⟩ := ih (h.destroy i) hrest hnodup.2
    refine ⟨hptr, hlive, ?_⟩
    have hcongr : early uses (x.destroy i).ptr is = early uses x.ptr is := by
      refine early_congr fun j hj => ?_
      rw [Holder.destroy_ptr, Function.update_of_ne]
      rintro rfl
      exact hnodup.1 hj
    -- the pointers that are still set are in the rest of the list
    have hstep : (x.destroy i).ledger.misuses = x.ledger.misuses ++
        if (x.ptr i).isSome ∧ is.any (fun j => (x.ptr j).isSome && decide (i ∈ uses j)) then
          [.inUse i] else [] := by
      rcases hg : x.ptr i with _ | g
      · simp [Holder.destroy, hg]
      · have huse : x.ledger.inUse g =
            is.any fun j => (x.ptr j).isSome && decide (i ∈ uses j) := by
          rw [Bool.eq_iff_iff, h.inUse_iff hg, List.any_eq_true]
          constructor
          · rintro ⟨j, hj, hij⟩
            refine ⟨j, (List.mem_cons.mp (hcover j hj)).resolve_left ?_, by simp [hj, hij]⟩
            rintro rfl
            exact hself j hij
          · rintro ⟨j, -, hj⟩
            rw [Bool.and_eq_true, decide_eq_true_eq] at hj
            exact ⟨j, hj⟩
        obtain ⟨r, hr, rfl, -⟩ := h.held i g hg
        simp [Holder.destroy, hg, Ledger.release, hr, huse]
    change ((x.destroy i).destroyAll is).ledger.misuses = _
    rw [hmis, hstep, hcongr, early, List.append_assoc]

end Owns

end HMC.Machine

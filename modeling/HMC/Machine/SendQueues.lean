import Mathlib.Logic.Function.Basic
import Mathlib.Algebra.BigOperators.Group.Finset.Basic
import Mathlib.Data.List.Pairwise

/-!
# Send queues of a network card

One side of a connection owns a family of send queues. A post appends a request to one of
them and gives it the next posting number; the card executes the head of a queue, at any
later moment and independently of the other queues. `SendQueues ω` is that object for an
arbitrary request type `ω`.

* `Queued t w q`: request number `t` is `w` and waits in queue `q`.
* `Pending t` / `Executed t`: request number `t` waits, or has been posted and is gone.
* `Ordered`: posting numbers grow along each queue, are below the counter and name one entry.
  Both operations keep it (`Ordered.post`, `Ordered.pop`).
* `Fifo`: when the queue of a request is a function of its number, the executed requests of
  each queue are an initial part of it.
* `load`: how many requests wait in the first queues, a measure for runs that drain them.
* `Ordered.pop_spec` is the one fact about execution: exactly the head leaves, and it has
  the least number of its queue, so a queue is executed in posting order.
-/

namespace HMC.Machine

/-- A family of FIFO send queues whose entries carry their posting numbers. -/
structure SendQueues (ω : Type*) where
  /-- The number of the next post. -/
  next : ℕ
  /-- The requests that wait in each queue, the oldest first. -/
  queue : ℕ → List (ℕ × ω)

namespace SendQueues

variable {ω : Type*} {nq nq' : SendQueues ω} {q q' t t' : ℕ} {w w' : ω}

/-- Queues in which nothing was posted. -/
def empty : SendQueues ω := ⟨0, fun _ => []⟩

/-- Append a request to queue `q`. -/
def post (nq : SendQueues ω) (q : ℕ) (w : ω) : SendQueues ω where
  next := nq.next + 1
  queue := Function.update nq.queue q (nq.queue q ++ [(nq.next, w)])

/-- Execute the head of queue `q`. -/
def pop (nq : SendQueues ω) (q : ℕ) : Option ((ℕ × ω) × SendQueues ω) :=
  match nq.queue q with
  | [] => none
  | e :: rest => some (e, { nq with queue := Function.update nq.queue q rest })

/-- Request number `t` is `w` and waits in queue `q`. -/
def Queued (nq : SendQueues ω) (t : ℕ) (w : ω) (q : ℕ) : Prop := (t, w) ∈ nq.queue q

/-- Request number `t` waits in some queue. -/
def Pending (nq : SendQueues ω) (t : ℕ) : Prop := ∃ w q, nq.Queued t w q

/-- Request number `t` was posted and has left its queue. -/
def Executed (nq : SendQueues ω) (t : ℕ) : Prop := t < nq.next ∧ ¬ nq.Pending t

/-- Every posted request was executed. -/
def Drained (nq : SendQueues ω) : Prop := ∀ q, nq.queue q = []

/-- Posting numbers grow along each queue, are below the counter and name one entry. -/
structure Ordered (nq : SendQueues ω) : Prop where
  sorted : ∀ q, (nq.queue q).Pairwise fun a b => a.1 < b.1
  lt_next : ∀ {t w q}, nq.Queued t w q → t < nq.next
  unique : ∀ {t w w' q q'}, nq.Queued t w q → nq.Queued t w' q' → w = w' ∧ q = q'

theorem Queued.pending (h : nq.Queued t w q) : nq.Pending t := ⟨w, q, h⟩

theorem ordered_empty : (empty : SendQueues ω).Ordered where
  sorted := by simp [empty]
  lt_next := by simp [Queued, empty]
  unique := by simp [Queued, empty]

theorem not_pending_empty : ¬ (empty : SendQueues ω).Pending t := by
  simp [Pending, Queued, empty]

theorem Executed.not_pending (h : nq.Executed t) : ¬ nq.Pending t := h.2

theorem executed_or_pending (h : t < nq.next) : nq.Executed t ∨ nq.Pending t := by
  by_cases hp : nq.Pending t
  · exact .inr hp
  · exact .inl ⟨h, hp⟩

theorem Drained.not_pending (h : nq.Drained) : ¬ nq.Pending t := by
  rintro ⟨w, q, hq⟩
  rw [Queued, h q] at hq
  simp at hq

/-! ### Posting -/

@[simp] theorem post_next : (nq.post q w).next = nq.next + 1 := rfl

theorem queued_post :
    (nq.post q w).Queued t w' q' ↔ nq.Queued t w' q' ∨ t = nq.next ∧ w' = w ∧ q' = q := by
  simp only [Queued, post]
  by_cases h : q' = q
  · subst h
    simp [Function.update_self]
  · simp [h]

theorem pending_post : (nq.post q w).Pending t ↔ nq.Pending t ∨ t = nq.next := by
  simp only [Pending, queued_post]
  constructor
  · rintro ⟨w', q', h | ⟨h, -, -⟩⟩
    · exact .inl ⟨w', q', h⟩
    · exact .inr h
  · rintro (⟨w', q', h⟩ | h)
    · exact ⟨w', q', .inl h⟩
    · exact ⟨w, q, .inr ⟨h, rfl, rfl⟩⟩

/-- A post executes nothing and undoes no execution. -/
@[simp] theorem executed_post : (nq.post q w).Executed t ↔ nq.Executed t := by
  simp only [Executed, pending_post, post_next, not_or]
  constructor
  · rintro ⟨hlt, hp, hne⟩
    exact ⟨by omega, hp⟩
  · rintro ⟨hlt, hp⟩
    exact ⟨by omega, hp, by omega⟩

theorem Ordered.post (h : nq.Ordered) (q : ℕ) (w : ω) : (nq.post q w).Ordered where
  sorted q' := by
    simp only [SendQueues.post]
    by_cases hq : q' = q
    · subst hq
      rw [Function.update_self, List.pairwise_append]
      refine ⟨h.sorted q', by simp, fun a ha b hb => ?_⟩
      obtain rfl := List.mem_singleton.mp hb
      exact h.lt_next ha
    · rw [Function.update_of_ne hq]
      exact h.sorted q'
  lt_next hq := by
    obtain hq | ⟨rfl, -, -⟩ := queued_post.mp hq
    · exact Nat.lt_succ_of_lt (h.lt_next hq)
    · exact Nat.lt_succ_self _
  unique h₁ h₂ := by
    rcases queued_post.mp h₁ with hq₁ | ⟨ht₁, hw₁, hq₁⟩ <;>
      obtain hq₂ | ⟨ht₂, hw₂, hq₂⟩ := queued_post.mp h₂
    · exact h.unique hq₁ hq₂
    · have := h.lt_next hq₁
      omega
    · have := h.lt_next hq₂
      omega
    · exact ⟨hw₁.trans hw₂.symm, hq₁.trans hq₂.symm⟩

/-! ### Executing -/

/-- What an execution does. -/
theorem pop_eq_some {e : ℕ × ω} (hp : nq.pop q = some (e, nq')) :
    ∃ rest, nq.queue q = e :: rest ∧
      nq' = { nq with queue := Function.update nq.queue q rest } := by
  simp only [pop] at hp
  split at hp
  · cases hp
  · rename_i e' rest hq
    simp only [Option.some.injEq, Prod.mk.injEq] at hp
    obtain ⟨rfl, rfl⟩ := hp
    exact ⟨rest, hq, rfl⟩

theorem head?_of_pop (hp : nq.pop q = some ((t, w), nq')) : (nq.queue q).head? = some (t, w) := by
  obtain ⟨rest, hq, -⟩ := pop_eq_some hp
  rw [hq, List.head?_cons]

/-- A queue in which a request waits can be executed. -/
theorem Queued.exists_pop (h : nq.Queued t w q) : ∃ e nq', nq.pop q = some (e, nq') := by
  unfold Queued at h
  unfold pop
  split
  · rename_i hq
    rw [hq] at h
    cases h
  · exact ⟨_, _, rfl⟩

/-- A request waits on, or is the one that was executed. -/
theorem Queued.of_pop (h : nq.Queued t' w' q') (hp : nq.pop q = some ((t, w), nq')) :
    nq'.Queued t' w' q' ∨ w' = w := by
  obtain ⟨rest, hq, rfl⟩ := pop_eq_some hp
  by_cases hqq : q' = q
  · subst hqq
    simp only [Queued, hq, List.mem_cons, Prod.mk.injEq] at h
    simp only [Queued, Function.update_self]
    exact h.symm.imp_right And.right
  · left
    simpa only [Queued, Function.update_of_ne hqq] using h

/-- **One execution.** The head of the queue leaves and nothing else does; it has the least
posting number of its queue. Numbers grow along the queue and name one entry each, so no other entry
has the number that has left. -/
theorem Ordered.pop_spec (h : nq.Ordered) (hp : nq.pop q = some ((t, w), nq')) :
    nq.Queued t w q ∧ nq'.next = nq.next ∧
      (∀ t' w' q', nq'.Queued t' w' q' ↔ nq.Queued t' w' q' ∧ t' ≠ t) ∧
      ∀ t' w', nq.Queued t' w' q → t ≤ t' := by
  obtain ⟨rest, hq, rfl⟩ := pop_eq_some hp
  have hhead : nq.Queued t w q := by simp [Queued, hq]
  have hsorted := h.sorted q
  rw [hq, List.pairwise_cons] at hsorted
  refine ⟨hhead, rfl, fun t' w' q' => ?_, fun t' w' hw => ?_⟩
  · by_cases hqq : q' = q
    · subst hqq
      simp only [Queued, Function.update_self, hq, List.mem_cons, Prod.mk.injEq]
      constructor
      · intro hm
        exact ⟨.inr hm, Nat.ne_of_gt (hsorted.1 _ hm)⟩
      · rintro ⟨⟨rfl, -⟩ | hm, hne⟩
        · exact absurd rfl hne
        · exact hm
    · simp only [Queued, Function.update_of_ne hqq]
      refine ⟨fun hm => ⟨hm, ?_⟩, And.left⟩
      rintro rfl
      exact hqq (h.unique hm hhead).2
  · simp only [Queued, hq, List.mem_cons, Prod.mk.injEq] at hw
    obtain ⟨rfl, -⟩ | hm := hw
    · exact Nat.le_refl _
    · exact Nat.le_of_lt (hsorted.1 _ hm)

theorem Ordered.pop (h : nq.Ordered) (hp : nq.pop q = some ((t, w), nq')) : nq'.Ordered := by
  obtain ⟨-, hnext, hqueued, -⟩ := h.pop_spec hp
  refine ⟨fun q' => ?_, fun hq => ?_, fun h₁ h₂ => ?_⟩
  · have hsub : (nq'.queue q').Sublist (nq.queue q') := by
      simp only [SendQueues.pop] at hp
      split at hp
      · cases hp
      · rename_i e rest hq
        simp only [Option.some.injEq, Prod.mk.injEq] at hp
        obtain ⟨-, rfl⟩ := hp
        by_cases hqq : q' = q
        · subst hqq
          simp [hq]
        · simp [hqq]
    exact (h.sorted q').sublist hsub
  · rw [hnext]
    exact h.lt_next ((hqueued _ _ _).mp hq).1
  · exact h.unique ((hqueued _ _ _).mp h₁).1 ((hqueued _ _ _).mp h₂).1

theorem Ordered.pending_pop (h : nq.Ordered) (hp : nq.pop q = some ((t, w), nq')) :
    nq'.Pending t' ↔ nq.Pending t' ∧ t' ≠ t := by
  obtain ⟨-, -, hqueued, -⟩ := h.pop_spec hp
  simp only [Pending, hqueued]
  exact ⟨fun ⟨w', q', hm, hne⟩ => ⟨⟨w', q', hm⟩, hne⟩, fun ⟨⟨w', q', hm⟩, hne⟩ =>
    ⟨w', q', hm, hne⟩⟩

/-- Executing request `t` makes it, and only it, executed. -/
theorem Ordered.executed_pop (h : nq.Ordered) (hp : nq.pop q = some ((t, w), nq')) :
    nq'.Executed t' ↔ nq.Executed t' ∨ t' = t := by
  obtain ⟨hhead, hnext, -, -⟩ := h.pop_spec hp
  have hlt := h.lt_next hhead
  simp only [Executed, h.pending_pop hp, hnext]
  constructor
  · rintro ⟨hlt', hnot⟩
    by_cases he : t' = t
    · exact .inr he
    · exact .inl ⟨hlt', fun hpd => hnot ⟨hpd, he⟩⟩
  · rintro (⟨hlt', hnot⟩ | rfl)
    · exact ⟨hlt', fun hpd => hnot hpd.1⟩
    · exact ⟨hlt, fun hpd => hpd.2 rfl⟩

/-- **Queue order.** When request `t` of queue `q` is executed, every earlier request that
was posted to `q` has left it. -/
theorem Ordered.not_queued_of_lt (h : nq.Ordered) (hp : nq.pop q = some ((t, w), nq'))
    (hlt : t' < t) : ¬ nq.Queued t' w' q := fun hq =>
  absurd ((h.pop_spec hp).2.2.2 _ _ hq) (by omega)

/-! ### Posts whose queue is a function of their number -/

/-- From number `t₀` on, request `t` is posted to queue `queueOf t`, and each queue has executed
an initial part of its requests. So one executed request tells that all earlier ones of its queue
are, which is what the completion of a signaled request means. -/
structure Fifo (nq : SendQueues ω) (t₀ : ℕ) (queueOf : ℕ → ℕ) : Prop where
  ordered : nq.Ordered
  queue_eq : ∀ {t w q}, t₀ ≤ t → nq.Queued t w q → q = queueOf t
  executed : ∀ {i j}, t₀ ≤ i → i ≤ j → queueOf i = queueOf j → nq.Executed j → nq.Executed i

namespace Fifo

variable {t₀ : ℕ} {queueOf : ℕ → ℕ}

theorem start (h : nq.Ordered) (ht : t₀ = nq.next) : nq.Fifo t₀ queueOf where
  ordered := h
  queue_eq hle hq := absurd (h.lt_next hq) (by omega)
  executed hle hij _ hx := absurd hx.1 (by omega)

theorem post (h : nq.Fifo t₀ queueOf) (hq : q = queueOf nq.next) (w : ω) :
    (nq.post q w).Fifo t₀ queueOf where
  ordered := h.ordered.post q w
  queue_eq hle hq' := by
    obtain hq' | ⟨rfl, -, rfl⟩ := queued_post.mp hq'
    · exact h.queue_eq hle hq'
    · exact hq
  executed hle hij he hx := executed_post.mpr (h.executed hle hij he (executed_post.mp hx))

theorem pop (h : nq.Fifo t₀ queueOf) (hp : nq.pop q = some ((t, w), nq')) :
    nq'.Fifo t₀ queueOf where
  ordered := h.ordered.pop hp
  queue_eq hle hq' := h.queue_eq hle (((h.ordered.pop_spec hp).2.2.1 _ _ _).mp hq').1
  executed {i j} hle hij he hx := by
    rw [h.ordered.executed_pop hp] at hx ⊢
    by_cases hit : i = t
    · exact .inr hit
    · refine .inl ?_
      obtain hx | rfl := hx
      · exact h.executed hle hij he hx
      · have hhead := (h.ordered.pop_spec hp).1
        have hlt := h.ordered.lt_next hhead
        refine (executed_or_pending (by omega)).resolve_right ?_
        rintro ⟨w', q', hq'⟩
        have hq₁ := h.queue_eq hle hq'
        have hq₂ := h.queue_eq (Nat.le_trans hle hij) hhead
        rw [hq₁, he, ← hq₂] at hq'
        exact h.ordered.not_queued_of_lt hp (by omega) hq'

end Fifo

/-! ### The requests from a number on -/

/-- The queues as someone sees them who counts the posts from number `base` on. -/
def since (nq : SendQueues ω) (base : ℕ) : SendQueues ω where
  next := nq.next - base
  queue q :=
    (nq.queue q).filterMap fun e => if base ≤ e.1 then some (e.1 - base, e.2) else none

variable {base : ℕ}

@[simp] theorem since_next : (nq.since base).next = nq.next - base := rfl

@[simp] theorem queued_since : (nq.since base).Queued t w q ↔ nq.Queued (base + t) w q := by
  simp only [Queued, since, List.mem_filterMap, Option.ite_none_right_eq_some,
    Option.some.injEq, Prod.mk.injEq]
  constructor
  · rintro ⟨⟨n, w'⟩, hmem, hle, rfl, rfl⟩
    rwa [Nat.add_sub_cancel' hle]
  · intro hmem
    exact ⟨_, hmem, Nat.le_add_right _ _, Nat.add_sub_cancel_left _ _, rfl⟩

@[simp] theorem pending_since : (nq.since base).Pending t ↔ nq.Pending (base + t) := by
  simp only [Pending, queued_since]

@[simp] theorem executed_since : (nq.since base).Executed t ↔ nq.Executed (base + t) := by
  simp only [Executed, pending_since, since_next]
  exact and_congr_left fun _ => by omega

theorem Ordered.since (h : nq.Ordered) (base : ℕ) : (nq.since base).Ordered where
  sorted q := by
    refine (h.sorted q).filterMap _ fun a b hab a' ha b' hb => ?_
    simp only [Option.ite_none_right_eq_some, Option.some.injEq] at ha hb
    obtain ⟨hle, rfl⟩ := ha
    obtain ⟨-, rfl⟩ := hb
    simp only
    omega
  lt_next hq := by
    have := h.lt_next (queued_since.mp hq)
    rw [since_next]
    omega
  unique h₁ h₂ := h.unique (queued_since.mp h₁) (queued_since.mp h₂)

/-- A view that starts with the next post is empty. -/
theorem Ordered.since_next_eq (h : nq.Ordered) : nq.since nq.next = empty := by
  have hq : ∀ q, (nq.since nq.next).queue q = [] := by
    intro q
    rw [List.eq_nil_iff_forall_not_mem]
    rintro ⟨t, w⟩ hmem
    have := h.lt_next (queued_since.mp hmem)
    omega
  rw [empty, SendQueues.since, SendQueues.mk.injEq]
  exact ⟨Nat.sub_self _, funext hq⟩

/-- Later posts are seen. -/
theorem since_post (h : base ≤ nq.next) :
    (nq.post q w).since base = (nq.since base).post q w := by
  simp only [since, post, SendQueues.mk.injEq]
  refine ⟨by omega, funext fun q' => ?_⟩
  by_cases hq : q' = q
  · subst hq
    simp [h]
  · simp [hq]

/-- Executing a request that is seen is seen. -/
theorem since_pop (hp : nq.pop q = some ((base + t, w), nq')) :
    (nq.since base).pop q = some ((t, w), nq'.since base) := by
  obtain ⟨rest, hq, rfl⟩ := pop_eq_some hp
  simp only [pop, since, hq, List.filterMap_cons, Nat.le_add_right, if_true,
    Nat.add_sub_cancel_left]
  congr 3
  refine funext fun q' => ?_
  by_cases hq' : q' = q
  · subst hq'
    simp
  · simp [hq']

/-- Every waiting request has a number from `base` on. -/
structure NoneBefore (nq : SendQueues ω) (base : ℕ) : Prop where
  ordered : nq.Ordered
  base_le : base ≤ nq.next
  le_of_pending : ∀ {t}, nq.Pending t → base ≤ t

namespace NoneBefore

/-- Queues in which nothing waits. -/
theorem of_not_pending (h : nq.Ordered) (hp : ∀ t, ¬ nq.Pending t) : nq.NoneBefore nq.next :=
  ⟨h, Nat.le_refl _, fun {t} ht => absurd ht (hp t)⟩

theorem post (h : nq.NoneBefore base) (q : ℕ) (w : ω) : (nq.post q w).NoneBefore base where
  ordered := h.ordered.post q w
  base_le := Nat.le_succ_of_le h.base_le
  le_of_pending ht := by
    obtain ht | rfl := pending_post.mp ht
    · exact h.le_of_pending ht
    · exact h.base_le

theorem pop (h : nq.NoneBefore base) (hp : nq.pop q = some ((t, w), nq')) :
    nq'.NoneBefore base where
  ordered := h.ordered.pop hp
  base_le := by
    rw [(h.ordered.pop_spec hp).2.1]
    exact h.base_le
  le_of_pending ht := h.le_of_pending ((h.ordered.pending_pop hp).mp ht).1

/-- What executes is seen from `base` on. -/
theorem pop_since (h : nq.NoneBefore base) (hp : nq.pop q = some ((t, w), nq')) :
    ∃ n, t = base + n ∧ (nq.since base).pop q = some ((n, w), nq'.since base) := by
  obtain ⟨n, rfl⟩ := Nat.exists_eq_add_of_le (h.le_of_pending (h.ordered.pop_spec hp).1.pending)
  exact ⟨n, rfl, since_pop hp⟩

/-- When nothing waits that is seen from `base` on, nothing waits. -/
theorem not_pending (h : nq.NoneBefore base) (hp : ∀ n, ¬ (nq.since base).Pending n) (t : ℕ) :
    ¬ nq.Pending t := by
  intro ht
  obtain ⟨n, rfl⟩ := Nat.exists_eq_add_of_le (h.le_of_pending ht)
  exact hp n (pending_since.mpr ht)

end NoneBefore

/-! ### The waiting requests, counted -/

/-- How many requests wait in the queues below `queues`. -/
def load (nq : SendQueues ω) (queues : ℕ) : ℕ :=
  ∑ q ∈ Finset.range queues, (nq.queue q).length

variable {queues : ℕ}

theorem load_post (hq : q < queues) : (nq.post q w).load queues = nq.load queues + 1 := by
  have hmem : q ∈ Finset.range queues := Finset.mem_range.mpr hq
  simp only [load, post]
  rw [← Finset.add_sum_erase _ _ hmem, ← Finset.add_sum_erase _ _ hmem, Function.update_self,
    List.length_append, List.length_singleton]
  have hrest : ∀ i ∈ (Finset.range queues).erase q,
      (Function.update nq.queue q (nq.queue q ++ [(nq.next, w)]) i).length =
        (nq.queue i).length := fun i hi => by
    rw [Function.update_of_ne (Finset.ne_of_mem_erase hi)]
  rw [Finset.sum_congr rfl hrest]
  omega

theorem load_pop {e : ℕ × ω} (hq : q < queues) (hp : nq.pop q = some (e, nq')) :
    nq'.load queues + 1 = nq.load queues := by
  have hmem : q ∈ Finset.range queues := Finset.mem_range.mpr hq
  simp only [pop] at hp
  split at hp
  · cases hp
  · rename_i e' rest hqueue
    cases hp
    simp only [load]
    rw [← Finset.add_sum_erase _ _ hmem, ← Finset.add_sum_erase _ _ hmem, Function.update_self,
      hqueue, List.length_cons]
    have hrest : ∀ i ∈ (Finset.range queues).erase q,
        (Function.update nq.queue q rest i).length = (nq.queue i).length := fun i hi => by
      rw [Function.update_of_ne (Finset.ne_of_mem_erase hi)]
    rw [Finset.sum_congr rfl hrest]
    omega

end SendQueues

end HMC.Machine

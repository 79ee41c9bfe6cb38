import Mathlib.Data.List.Basic
import HMC.Core.Chunks

/-!
# Requests that occupy a send queue

A request occupies its queue until the completion of it, or of a later request of the same queue,
has been polled; only signaled requests have a completion. `unretired q base log` counts the
occupied places of queue `q` after the events of `log`, when `base` were occupied before.

A `Posting` is a program that posts its items in turn: item `i` is `weight` requests on one queue,
of which the last may be signaled. When it polls, it polls all its signaled items. `Posting.book`
says what `unretired` then depends on: how many items were posted, and how many had been when it
polled.

The log is read by `QueueBook.of`, one book for each queue, which is the definition of what is
outstanding: it is not taken from the program's own counters. `Posting.book` is what such a book
must be for a program that posts in turn, and the lemmas `note_request`, `note_last` and
`note_polled` say that each event takes the one to the next. A program's invariant is then one
equation for each queue, from which `unretired_eq` reads the number of places.
-/

namespace HMC.Machine

variable {τ : Type*}

/-- A request is posted to a queue, or completions are polled. -/
inductive QueueEvent (τ : Type*)
  | posted (request : τ) (queue id : ℕ) (signaled : Bool)
  | polled (ids : List ℕ)
  deriving DecidableEq

/-- The state of one queue: how many requests it has seen, the numbers and ids of the signaled ones
that were not polled, and how many requests are retired. -/
@[ext]
structure QueueBook where
  posted : ℕ
  signaled : List (ℕ × ℕ)
  retired : ℕ
  deriving DecidableEq

namespace QueueBook

def opened (base : ℕ) : QueueBook := ⟨base, [], 0⟩

def note (q : ℕ) (b : QueueBook) : QueueEvent τ → QueueBook
  | .posted _ queue id signaled =>
    if queue = q then
      { b with
        posted := b.posted + 1
        signaled := if signaled then b.signaled ++ [(b.posted, id)] else b.signaled }
    else b
  | .polled ids =>
    { b with
      signaled := b.signaled.filter (·.2 ∉ ids)
      retired := (b.signaled.filter (·.2 ∈ ids)).foldl (fun n p => max n (p.1 + 1)) b.retired }

/-- The book of queue `q` after the events of a log. -/
def of (q base : ℕ) (log : List (QueueEvent τ)) : QueueBook := log.foldl (note q) (opened base)

theorem of_append (q base : ℕ) (log : List (QueueEvent τ)) (e : Option (QueueEvent τ)) :
    of q base (log ++ e.toList) = e.elim (of q base log) (note q (of q base log)) := by
  cases e with
  | none => simp
  | some e => simp [of]

/-- A poll that names every signaled request retires all of them. -/
theorem note_polled {q : ℕ} {b : QueueBook} {ids : List ℕ} (h : ∀ p ∈ b.signaled, p.2 ∈ ids) :
    b.note q (.polled ids : QueueEvent τ) =
      ⟨b.posted, [], b.signaled.foldl (fun n p => max n (p.1 + 1)) b.retired⟩ := by
  have hall : b.signaled.filter (·.2 ∈ ids) = b.signaled :=
    List.filter_eq_self.mpr fun p hp => by simpa using h p hp
  have hnone : b.signaled.filter (·.2 ∉ ids) = [] :=
    List.filter_eq_nil_iff.mpr fun p hp => by simpa using h p hp
  rw [note, hall, hnone]

end QueueBook

/-- The places of queue `q` that are occupied. -/
def unretired (q base : ℕ) (log : List (QueueEvent τ)) : ℕ :=
  (QueueBook.of q base log).posted - (QueueBook.of q base log).retired

/-- Items that are posted in turn: item `i` is `weight` requests on `queue i`, and the last of them
is signaled if `signaled i`. -/
structure Posting where
  queue : ℕ → ℕ
  weight : ℕ
  signaled : ℕ → Bool
  weight_pos : 0 < weight

namespace Posting

variable (S : Posting) (q start done : ℕ)

/-- How many of the first `n` items are on queue `q`. -/
def count (n : ℕ) : ℕ := ((List.range n).filter fun i => S.queue i = q).length

/-- The number of the next request behind item `i` of queue `q`. -/
def after (i : ℕ) : ℕ := start + S.weight * S.count q (i + 1)

/-- The signaled items of queue `q` from `b` on, below `n`. -/
def signals (b n : ℕ) : List ℕ :=
  chunksIn (fun i => S.queue i = q ∧ S.signaled i = true) b n

/-- How many requests are retired when the signaled ones of the first `b` items were polled, and
`done` before the first of them. -/
def retired (b : ℕ) : ℕ := (S.signals q 0 b).foldl (fun n i => max n (S.after q start i)) done

/-- The book of queue `q` when `n` items were posted, the first `b` of them before the last poll. -/
def book (id : ℕ → ℕ) (n b : ℕ) : QueueBook where
  posted := start + S.weight * S.count q n
  signaled := (S.signals q b n).map fun i => (S.after q start i - 1, id i)
  retired := S.retired q start done b

/-- The places of queue `q` that are occupied then. -/
def unretiredAt (n b : ℕ) : ℕ := start + S.weight * S.count q n - S.retired q start done b

variable {S q start done} {id : ℕ → ℕ} {n b : ℕ}

theorem count_succ : S.count q (n + 1) = S.count q n + if S.queue n = q then 1 else 0 := by
  rw [count, count, List.range_succ, List.filter_append, List.length_append]
  split_ifs with h <;> simp [h]

theorem signals_succ (hb : b ≤ n) : S.signals q b (n + 1) =
    S.signals q b n ++ if S.queue n = q ∧ S.signaled n = true then [n] else [] :=
  chunksIn_succ hb

/-- The signaled items before and after a poll. -/
theorem signals_append (hb : b ≤ n) : S.signals q 0 b ++ S.signals q b n = S.signals q 0 n :=
  chunksIn_append hb

theorem signals_nil : S.signals q n n = [] := chunksIn_self

theorem retired_append (hb : b ≤ n) : S.retired q start done n =
    (S.signals q b n).foldl (fun m i => max m (S.after q start i)) (S.retired q start done b) := by
  rw [retired, retired, ← List.foldl_append, signals_append hb]

/-- Item `n` has been posted but for its last requests: of these, `k` are there. -/
def partBook (S : Posting) (q start done : ℕ) (id : ℕ → ℕ) (n b k : ℕ) : QueueBook where
  posted := start + S.weight * S.count q n + if S.queue n = q then k else 0
  signaled := (S.book q start done id n b).signaled
  retired := S.retired q start done b

theorem partBook_zero : S.partBook q start done id n b 0 = S.book q start done id n b := by
  simp [partBook, book]

/-- A request of item `n` before its last. -/
theorem note_request (r : τ) (i k : ℕ) :
    (S.partBook q start done id n b k).note q (.posted r (S.queue n) i false) =
      S.partBook q start done id n b (k + 1) := by
  by_cases hq : S.queue n = q
  · simp only [QueueBook.note, partBook, hq, if_true, Bool.false_eq_true, if_false, Nat.add_assoc]
  · simp only [QueueBook.note, partBook, hq, if_false]

/-- The last request of item `n`. -/
theorem note_last (r : τ) (hb : b ≤ n) :
    (S.partBook q start done id n b (S.weight - 1)).note q
        (.posted r (S.queue n) (id n) (S.signaled n)) = S.book q start done id (n + 1) b := by
  have hpos := S.weight_pos
  rw [QueueBook.note, book, signals_succ hb, count_succ]
  split_ifs with hq hsig hboth hboth
  · -- signaled
    have hafter : start + S.weight * S.count q n + (S.weight - 1) = S.after q start n - 1 := by
      rw [after, count_succ, if_pos hq, Nat.mul_add]
      omega
    simp only [partBook, book, hq, if_true, hafter, QueueBook.mk.injEq, List.map_append,
      List.map_singleton, and_true]
    rw [← hafter, Nat.mul_add]
    omega
  · exact absurd ⟨hq, hsig⟩ hboth
  · exact absurd hboth.2 hsig
  · simp only [partBook, book, hq, if_true, QueueBook.mk.injEq, List.append_nil, and_true]
    rw [Nat.mul_add]
    omega
  · exact absurd (‹S.queue n = q ∧ _›).1 hq
  · simp [partBook, book, hq]

/-- A poll that names the signaled items since the last one. -/
theorem note_polled (hb : b ≤ n) {ids : List ℕ} (h : ∀ i ∈ S.signals q b n, id i ∈ ids) :
    (S.book q start done id n b).note q (.polled ids : QueueEvent τ) =
      S.book q start done id n n := by
  have hafter : ∀ i ∈ S.signals q b n, S.after q start i - 1 + 1 = S.after q start i := by
    intro i hi
    have hq : S.queue i = q := by
      exact (mem_chunksIn.mp hi).2.1
    have hpos := S.weight_pos
    rw [after, count_succ, if_pos hq, Nat.mul_add]
    omega
  rw [QueueBook.note_polled (by simpa [book] using h), book, book, signals_nil, retired_append hb,
    List.foldl_map]
  refine QueueBook.ext rfl rfl (List.foldl_ext _ _ _ fun m i hi => ?_)
  dsimp only
  rw [hafter i hi]

theorem unretired_eq {base : ℕ} {log : List (QueueEvent τ)}
    (h : QueueBook.of q base log = S.book q start done id n b) :
    unretired q base log = S.unretiredAt q start done n b := by
  rw [unretired, h]
  rfl

theorem le_foldl_max (l : List ℕ) (f : ℕ → ℕ) (m : ℕ) :
    m ≤ l.foldl (fun m i => max m (f i)) m := by
  induction l generalizing m with
  | nil => exact Nat.le_refl m
  | cons i l ih => exact Nat.le_trans (Nat.le_max_left ..) (ih _)

/-- A later poll retires more. -/
theorem retired_mono (hb : b ≤ n) : S.retired q start done b ≤ S.retired q start done n := by
  rw [retired_append hb]
  exact le_foldl_max ..

theorem retired_succ : S.retired q start done (n + 1) =
    if S.queue n = q ∧ S.signaled n = true then
      max (S.retired q start done n) (S.after q start n)
    else S.retired q start done n := by
  rw [retired, signals_succ (Nat.zero_le n), List.foldl_append]
  split_ifs
  · rfl
  · rfl

theorem count_mono {m : ℕ} (h : m ≤ n) : S.count q m ≤ S.count q n := by
  induction h with
  | refl => exact Nat.le_refl _
  | step h ih =>
    rw [count_succ]
    exact Nat.le_trans ih (Nat.le_add_right ..)

/-- What is retired reaches up to the last signaled item of the queue among those that were polled,
since completions retire what was posted before them; without a signaled item it is what it was. -/
theorem retired_eq (hdone : done ≤ start) : S.retired q start done b =
    match (S.signals q 0 b).getLast? with
    | some s => S.after q start s
    | none => done := by
  induction b with
  | zero => rw [retired, signals_nil]; rfl
  | succ b ih =>
    have hle : S.retired q start done b ≤ S.after q start b := by
      rw [ih]
      split
      · rename_i s hs
        have hlt := (mem_chunksIn.mp (List.mem_of_getLast? hs)).1.2
        exact Nat.add_le_add_left (Nat.mul_le_mul_left _ (count_mono (by omega))) _
      · exact Nat.le_trans hdone (Nat.le_add_right ..)
    rw [retired_succ, signals_succ (Nat.zero_le b)]
    split_ifs with hs
    · rw [Nat.max_eq_right hle, List.getLast?_append]
      rfl
    · rw [ih, List.append_nil]

/-! ### One queue -/

section OneQueue

variable (hone : ∀ i, S.queue i = q)
include hone

theorem count_of_one : S.count q n = n := by
  induction n with
  | zero => rfl
  | succ n ih => rw [count_succ, ih, if_pos (hone n)]

/-- If every `d`-th item is signaled, the items up to the last full `d` are retired. -/
theorem retired_of_regular {d : ℕ} (hd : 0 < d) (h : ∀ i < b, S.signaled i = true ↔ d ∣ i + 1) :
    S.retired q 0 0 b = S.weight * (b - b % d) := by
  induction b with
  | zero => simp [retired, signals_nil]
  | succ b ih =>
    have hlt := Nat.mod_lt b hd
    have hle := Nat.mod_le b d
    rw [retired_succ, ih fun i hi => h i (by omega), after, count_of_one hone, Nat.zero_add]
    by_cases hs : d ∣ b + 1
    · rw [if_pos ⟨hone b, (h b (by omega)).mpr hs⟩, Nat.mod_eq_zero_of_dvd hs, Nat.sub_zero]
      exact Nat.max_eq_right (Nat.mul_le_mul_left _ (by omega))
    · rw [if_neg fun hsig => hs ((h b (by omega)).mp hsig.2)]
      rw [succ_mod_of_not_dvd hs, Nat.add_sub_add_right]

end OneQueue

end Posting

end HMC.Machine

import HMC.Machine.Retirement

/-!
# Loops that post and wait for their signals

A `PostingLoop` posts its items round robin over its queues, signals every `interval`-th item and
the last one, and waits for the pending signals as soon as there are `limit` of them. So it waits
once in `round` items (`Inv`), and then frees each queue up to its last signaled item.

`Fits` bounds the places that the loop occupies window by window; `fits_iff` says that this is what
is occupied item by item, and `Inv.unretired_le` that a loop that fits never occupies more.

How many places a queue occupies depends on two numbers only, how many items were posted and before
which item the loop last waited (`unretiredAt_eq`); between two waits it grows. So a round is
fullest at its end, which is what `Fits` looks at. The converse, that a loop which does not fit
comes to a state with too many places occupied, is `Inv.unretired_eq`: it is the state right after
the item that is one too many. Items behind the last signaled one of their queue stay occupied
over a wait, and this is why the bound of several queues is not that of one (`fits_of_one`).
-/

namespace HMC.Machine

/-- A loop that posts `items` items of `weight` requests each. -/
structure PostingLoop where
  queues : ℕ
  weight : ℕ
  interval : ℕ
  limit : ℕ
  items : ℕ
  queues_pos : 0 < queues
  weight_pos : 0 < weight
  interval_pos : 0 < interval
  limit_pos : 0 < limit

namespace PostingLoop

variable {τ : Type*} (L : PostingLoop)

/-- How many items have `limit` signals. -/
def round : ℕ := L.limit * L.interval

def signaled (i : ℕ) : Bool := decide (signalAt L.interval L.items i)

def posting : Posting where
  queue i := i % L.queues
  weight := L.weight
  signaled := L.signaled
  weight_pos := L.weight_pos

/-- The signaled items from `b` on, below `n`. -/
def pending (b n : ℕ) : List ℕ := chunksIn (fun i => L.signaled i = true) b n

/-- How many of the first `n` items are on queue `q`. -/
def onQueue (q n : ℕ) : ℕ := (n + L.queues - 1 - q) / L.queues

/-- The last item of queue `q` below `b` that ends an interval. -/
def lastSignal (q b : ℕ) : Option ℕ :=
  (chunksIn (fun i => i % L.queues = q ∧ L.interval ∣ i + 1) 0 b).getLast?

/-- The places of queue `q` that are occupied when `n` items are posted and the loop has waited
before item `b`, with `left` places occupied from before: those of the items behind the last
signaled one. -/
def occupied (left : ℕ → ℕ) (q n b : ℕ) : ℕ :=
  match L.lastSignal q b with
  | some s => L.weight * (L.onQueue q n - L.onQueue q (s + 1))
  | none => left q + L.weight * L.onQueue q n

/-- The first `p` items never need more than `room` places of a queue: at the end of each round
there is room for them. -/
def Fits (left : ℕ → ℕ) (p room : ℕ) : Prop :=
  ∀ k < numChunks p L.round, ∀ q < L.queues,
    L.occupied left q (min ((k + 1) * L.round) p) (k * L.round) ≤ room

instance (left : ℕ → ℕ) (p room : ℕ) : Decidable (L.Fits left p room) :=
  inferInstanceAs (Decidable (∀ k < _, ∀ q < _, _ ≤ _))

variable {L} {q n b k p room : ℕ} {left start done : ℕ → ℕ}

theorem round_pos : 0 < L.round := Nat.mul_pos L.limit_pos L.interval_pos

theorem dvd_add_sub_iff (hq : q < L.queues) :
    L.queues ∣ n + (L.queues - q) ↔ n % L.queues = q := by
  have hlt := Nat.mod_lt n L.queues_pos
  have hdvd : L.queues ∣ n + (L.queues - q) ↔ L.queues ∣ n % L.queues + (L.queues - q) := by
    conv_lhs => rw [← Nat.div_add_mod n L.queues, Nat.add_assoc]
    exact Nat.dvd_add_right (Nat.dvd_mul_right ..)
  rw [hdvd]
  constructor
  · rintro ⟨c, hc⟩
    obtain rfl : c = 1 := by
      have hpos : 0 < c := Nat.pos_of_ne_zero fun hz => by
        rw [hz, Nat.mul_zero] at hc
        omega
      have htwo : ¬ 2 ≤ c := fun hle => by
        have := Nat.mul_le_mul_left L.queues hle
        omega
      omega
    omega
  · intro h
    have hsum : n % L.queues + (L.queues - q) = L.queues := by
      rw [h, Nat.add_sub_cancel' (Nat.le_of_lt hq)]
    exact ⟨1, by rw [hsum, Nat.mul_one]⟩

theorem count_eq (hq : q < L.queues) : L.posting.count q n = L.onQueue q n := by
  induction n with
  | zero =>
    rw [onQueue, Nat.div_eq_of_lt (by omega)]
    rfl
  | succ n ih =>
    rw [Posting.count_succ, ih, onQueue, onQueue,
      show n + 1 + L.queues - 1 - q = n + L.queues - 1 - q + 1 by omega, Nat.succ_div]
    simp only [show n + L.queues - 1 - q + 1 = n + (L.queues - q) by omega, dvd_add_sub_iff hq]
    rfl

/-! ### When a loop fits -/

/-- Before the last item the signaled ones are those that end an interval. -/
theorem signals_getLast? (hb : b < L.items) :
    (L.posting.signals q 0 b).getLast? = L.lastSignal q b := by
  rw [Posting.signals, lastSignal]
  congr 1
  refine chunksIn_congr fun i hi => and_congr_right fun _ => ?_
  show L.signaled i = true ↔ _
  rw [signaled, decide_eq_true_iff, signalAt]
  exact or_iff_right (by omega)

theorem unretiredAt_eq (hq : q < L.queues) (hdone : done q ≤ start q) (hb : b < L.items) :
    L.posting.unretiredAt q (start q) (done q) n b =
      L.occupied (fun q => start q - done q) q n b := by
  rw [Posting.unretiredAt, Posting.retired_eq hdone, signals_getLast? hb, count_eq hq, occupied]
  cases L.lastSignal q b with
  | none => exact Nat.sub_add_comm hdone
  | some s =>
    dsimp only [Posting.after]
    rw [count_eq hq, Nat.add_sub_add_left, Nat.mul_sub]
    rfl

theorem occupied_mono {n' : ℕ} (h : n ≤ n') : L.occupied left q n b ≤ L.occupied left q n' b := by
  have hle : L.onQueue q n ≤ L.onQueue q n' := Nat.div_le_div_right (by omega)
  unfold occupied
  split
  · exact Nat.mul_le_mul_left _ (Nat.sub_le_sub_right hle _)
  · exact Nat.add_le_add_left (Nat.mul_le_mul_left _ hle) _

/-- The end of each round speaks for all its items. -/
theorem fits_iff : L.Fits left p room ↔ ∀ i < p, ∀ q < L.queues,
    L.occupied left q (i + 1) (i / L.round * L.round) ≤ room := by
  have hpos := L.round_pos
  constructor
  · intro h i hi q hq
    have hk : i / L.round * L.round ≤ i := Nat.div_mul_le_self i L.round
    have hend : i < (i / L.round + 1) * L.round := by
      rw [Nat.mul_comm]
      exact Nat.lt_mul_div_succ i hpos
    refine Nat.le_trans (occupied_mono ?_) (h _ ((lt_numChunks_iff hpos).mpr (by omega)) q hq)
    omega
  · intro h k hk q hq
    have hlt := (lt_numChunks_iff hpos).mp hk
    have hsucc : (k + 1) * L.round = k * L.round + L.round := Nat.succ_mul ..
    have hlast := h (min ((k + 1) * L.round) p - 1) (by omega) q hq
    have hdiv : (min ((k + 1) * L.round) p - 1) / L.round = k :=
      Nat.div_eq_of_lt_le (by omega) (by omega)
    rwa [hdiv, Nat.sub_add_cancel (by omega)] at hlast

/-- On one queue the first round is the fullest. -/
theorem fits_of_one (hone : L.queues = 1) :
    L.Fits left p room ↔ (0 < p → left 0 + L.weight * min L.round p ≤ room) := by
  have hpos := L.round_pos
  have hon : ∀ n, L.onQueue 0 n = n := fun n => by simp [onQueue, hone]
  have hfirst : ∀ n, L.occupied left 0 n 0 = left 0 + L.weight * n := fun n => by
    rw [occupied, lastSignal, chunksIn_self, List.getLast?_nil, hon]
  have hlater : ∀ n k, L.occupied left 0 n ((k + 1) * L.round) =
      L.weight * (n - (k + 1) * L.round) := fun n k => by
    have hround : 0 < (k + 1) * L.round := Nat.mul_pos (Nat.succ_pos k) hpos
    have hlast : L.lastSignal 0 ((k + 1) * L.round) = some ((k + 1) * L.round - 1) := by
      obtain ⟨m, hm⟩ : ∃ m, (k + 1) * L.round = m + 1 := ⟨_, (Nat.succ_pred_eq_of_pos hround).symm⟩
      have hdvd : L.interval ∣ m + 1 := by
        rw [← hm, round]
        exact Nat.dvd_mul_left_of_dvd (Nat.dvd_mul_left ..) _
      rw [hm, lastSignal, chunksIn_succ (Nat.zero_le m), if_pos ⟨by rw [hone, Nat.mod_one], hdvd⟩,
        List.getLast?_append]
      rfl
    rw [occupied, hlast, hon]
    dsimp only
    rw [hon, Nat.sub_add_cancel hround]
  constructor
  · intro h hp
    have hzero := h 0 (numChunks_pos hpos hp) 0 (by omega)
    rwa [Nat.zero_mul, Nat.zero_add, Nat.one_mul, hfirst] at hzero
  · intro h k hk q hq
    obtain rfl : q = 0 := by omega
    have hlt := (lt_numChunks_iff hpos).mp hk
    have hroom := h (by omega)
    cases k with
    | zero => rwa [Nat.zero_mul, Nat.zero_add, Nat.one_mul, hfirst]
    | succ k =>
      rw [hlater]
      have hround := Nat.le_trans (Nat.le_add_left _ (left 0)) hroom
      refine Nat.le_trans (Nat.mul_le_mul_left _ ?_) hround
      rw [Nat.succ_mul (k + 1)]
      omega

/-! ### The loop -/

theorem pending_succ (hb : b ≤ n) :
    L.pending b (n + 1) = L.pending b n ++ if L.signaled n = true then [n] else [] :=
  chunksIn_succ hb

/-- Each interval has one signal. -/
theorem length_pending (hb : b ≤ n) (hn : n < L.items) :
    (L.pending b n).length = n / L.interval - b / L.interval := by
  induction hb with
  | refl => rw [pending, chunksIn_self, Nat.sub_self]; rfl
  | @step n hb ih =>
    have hdiv := Nat.div_le_div_right (c := L.interval) hb
    have hsig : L.signaled n = true ↔ L.interval ∣ n + 1 := by
      rw [signaled, decide_eq_true_iff, signalAt]
      exact or_iff_right (by omega)
    rw [pending_succ hb, List.length_append, ih (by omega), Nat.succ_div]
    simp only [hsig]
    split_ifs
    · rw [List.length_singleton]
      omega
    · rfl

/-- A loop has posted `n` items and `k` requests of the next one, and has waited for the signals of
the first `b` items. `base q` places of queue `q` were occupied at the start of the log; `start q`
requests had been posted and `done q` of them were retired when the loop began. -/
structure Inv (L : PostingLoop) (base start done id : ℕ → ℕ) (log : List (QueueEvent τ))
    (since : ℕ) (ids : List ℕ) (n b k : ℕ) : Prop where
  le : b ≤ n
  le_items : n ≤ L.items
  window : n ≤ b + L.round
  boundary : b = L.items ∨ L.round ∣ b
  part : k < L.weight
  inside : 0 < k → n < L.items ∧ n < b + L.round
  since : n < L.items → since = n % L.interval
  ids : ids = (L.pending b n).map id
  book : ∀ q, QueueBook.of q (base q) log = L.posting.partBook q (start q) (done q) id n b k

namespace Inv

variable {base id : ℕ → ℕ} {log : List (QueueEvent τ)} {since : ℕ} {ids : List ℕ}

theorem initial (h : ∀ q, QueueBook.of q (base q) log = ⟨start q, [], done q⟩) :
    L.Inv base start done id log 0 [] 0 0 0 where
  le := Nat.le_refl 0
  le_items := Nat.zero_le _
  window := Nat.zero_le _
  boundary := .inr (Nat.dvd_zero _)
  part := L.weight_pos
  inside hk := absurd hk (Nat.lt_irrefl 0)
  since _ := (Nat.zero_mod _).symm
  ids := by rw [pending, chunksIn_self, List.map_nil]
  book q := by
    rw [h, Posting.partBook_zero, Posting.book, Posting.retired, Posting.signals_nil, Posting.count,
      List.range_zero, List.filter_nil, List.length_nil]
    rfl

/-- A request of an item before its last. -/
theorem request (h : L.Inv base start done id log since ids n b k) (hn : n < L.items)
    (hw : n < b + L.round) (hk : k + 1 < L.weight) (r : τ) (i : ℕ) :
    L.Inv base start done id (log ++ [.posted r (n % L.queues) i false]) since ids n b (k + 1) :=
  { h with
    part := hk
    inside := fun _ => ⟨hn, hw⟩
    book := fun q => by
      have hsnoc := QueueBook.of_append q (base q) log (some (.posted r (n % L.queues) i false))
      rw [Option.toList_some, Option.elim_some, h.book] at hsnoc
      rw [hsnoc]
      exact Posting.note_request r i k }

/-- The last request of an item. -/
theorem item (h : L.Inv base start done id log since ids n b k) (hn : n < L.items)
    (hw : n < b + L.round) (hk : k + 1 = L.weight) (r : τ) :
    L.Inv base start done id (log ++ [.posted r (n % L.queues) (id n) (L.signaled n)])
      (if L.signaled n = true then 0 else since + 1)
      (if L.signaled n = true then ids ++ [id n] else ids) (n + 1) b 0 where
  le := Nat.le_succ_of_le h.le
  le_items := hn
  window := hw
  boundary := h.boundary
  part := L.weight_pos
  inside hk := absurd hk (Nat.lt_irrefl 0)
  since hlt := by
    split_ifs with hs
    · have hd : L.interval ∣ n + 1 := (of_decide_eq_true hs).resolve_left (by omega)
      rw [Nat.mod_eq_zero_of_dvd hd]
    · have hnd : ¬ L.interval ∣ n + 1 := fun hd => hs (decide_eq_true (.inr hd))
      rw [h.since hn, succ_mod_of_not_dvd hnd]
  ids := by
    rw [pending_succ h.le, List.map_append, ← h.ids]
    split_ifs
    · rfl
    · rw [List.map_nil, List.append_nil]
  book q := by
    have hsnoc := QueueBook.of_append q (base q) log
      (some (.posted r (n % L.queues) (id n) (L.signaled n)))
    rw [Option.toList_some, Option.elim_some, h.book,
      show k = L.posting.weight - 1 from Nat.eq_sub_of_add_eq hk] at hsnoc
    rw [hsnoc, Posting.partBook_zero]
    exact Posting.note_last r h.le

/-- The limit is reached at the end of a round. -/
theorem full_iff (h : L.Inv base start done id log since ids n b k) (hn : n < L.items) :
    L.limit ≤ ids.length ↔ n = b + L.round := by
  have hwindow := h.window
  have hle := h.le
  obtain ⟨m, rfl⟩ := h.boundary.resolve_left (by omega)
  have hd := L.interval_pos
  have hmul : ∀ x, L.limit * x * L.interval = L.round * x := fun x => Nat.mul_right_comm ..
  have hdiv : L.round * m / L.interval = L.limit * m := by
    rw [← hmul, Nat.mul_div_cancel _ hd]
  have hround : L.limit * (m + 1) ≤ n / L.interval ↔ L.round * (m + 1) ≤ n := by
    rw [Nat.le_div_iff_mul_le hd, hmul]
  rw [Nat.mul_succ, Nat.mul_succ] at hround
  rw [h.ids, List.length_map, length_pending hle hn, hdiv]
  have hpos := L.limit_pos
  omega

/-- A wait for the pending signals. -/
theorem polled (h : L.Inv base start done id log since ids n b 0)
    (hfull : n = L.items ∨ n = b + L.round) :
    L.Inv base start done id (log ++ [.polled ids]) since [] n n 0 where
  le := Nat.le_refl n
  le_items := h.le_items
  window := Nat.le_add_right ..
  boundary := by
    refine hfull.imp_right ?_
    rintro rfl
    have hpos := L.round_pos
    have hitems := h.le_items
    obtain ⟨m, rfl⟩ := h.boundary.resolve_left (by omega)
    exact ⟨m + 1, rfl⟩
  part := L.weight_pos
  inside hk := absurd hk (Nat.lt_irrefl 0)
  since := h.since
  ids := by rw [pending, chunksIn_self, List.map_nil]
  book q := by
    have hsnoc := QueueBook.of_append q (base q) log (some (.polled ids))
    rw [Option.toList_some, Option.elim_some, h.book, Posting.partBook_zero] at hsnoc
    rw [hsnoc, Posting.partBook_zero]
    refine Posting.note_polled h.le fun i hi => ?_
    obtain ⟨hin, -, hsig⟩ := mem_chunksIn.mp hi
    rw [h.ids]
    exact List.mem_map_of_mem (mem_chunksIn.mpr ⟨hin, hsig⟩)

/-- A wait because of the limit. -/
theorem polled_of_full (h : L.Inv base start done id log since ids n b 0)
    (hfull : L.limit ≤ ids.length) :
    L.Inv base start done id (log ++ [.polled ids]) since [] n n 0 :=
  h.polled <| (Nat.eq_or_lt_of_le h.le_items).imp_right fun hlt => (h.full_iff hlt).mp hfull

/-- Without a wait there is room for one more item. -/
theorem room_of_not_full (h : L.Inv base start done id log since ids n b k)
    (hfull : ¬ L.limit ≤ ids.length) (hn : n < L.items) : n < b + L.round :=
  Nat.lt_of_le_of_ne h.window fun heq => hfull ((h.full_iff hn).mpr heq)

/-- Item `n` is in the round of the last wait. -/
theorem div_mul_le (h : L.Inv base start done id log since ids n b k) {i : ℕ} (hi : i < b + L.round)
    (hitems : i < L.items) : i / L.round * L.round ≤ b := by
  obtain rfl | ⟨m, rfl⟩ := h.boundary
  · exact Nat.le_trans (Nat.div_mul_le_self i L.round) (Nat.le_of_lt hitems)
  · rw [Nat.mul_comm]
    refine Nat.mul_le_mul_left _ (Nat.lt_succ_iff.mp (Nat.div_lt_of_lt_mul ?_))
    rwa [Nat.mul_succ]

/-- **A loop that fits has room for all its posts.** At any moment the occupied places are those of
some item of the round under way, with a part of the next item; both are at most what the round
occupies at its end. -/
theorem unretired_le (h : L.Inv base start done id log since ids n b k) (hq : q < L.queues)
    (hdone : done q ≤ start q) (hleft : start q - done q ≤ room) (hp : p ≤ L.items) (hn : n ≤ p)
    (hk : 0 < k → n < p) (hfits : L.Fits (fun q => start q - done q) p room) :
    unretired q (base q) log ≤ room := by
  have hpos := L.round_pos
  have hwindow := h.window
  rw [unretired, h.book]
  by_cases hnone : n = 0 ∧ k = 0
  · -- nothing is posted
    obtain ⟨rfl, rfl⟩ := hnone
    obtain rfl := Nat.le_zero.mp h.le
    rw [Posting.partBook_zero]
    simpa [Posting.book, Posting.retired, Posting.signals_nil, Posting.count] using hleft
  · obtain ⟨i, hi, hround, hposted⟩ : ∃ i < p, i < b + L.round ∧
        (L.posting.partBook q (start q) (done q) id n b k).posted ≤
          start q + L.weight * L.posting.count q (i + 1) := by
      obtain rfl | hkpos := Nat.eq_zero_or_pos k
      · refine ⟨n - 1, by omega, by omega, Nat.le_of_eq ?_⟩
        rw [Posting.partBook_zero, Nat.sub_add_cancel (by omega)]
        rfl
      · refine ⟨n, hk hkpos, (h.inside hkpos).2, ?_⟩
        rw [Posting.count_succ, Nat.mul_add, ← Nat.add_assoc]
        refine Nat.add_le_add_left ?_ _
        have hpart := h.part
        split_ifs <;> omega
    have hretired : L.posting.retired q (start q) (done q) (i / L.round * L.round) ≤
        L.posting.retired q (start q) (done q) b :=
      Posting.retired_mono (h.div_mul_le hround (by omega))
    calc _ ≤ L.posting.unretiredAt q (start q) (done q) (i + 1) (i / L.round * L.round) :=
          Nat.le_trans (Nat.sub_le_sub_right hposted _) (Nat.sub_le_sub_left hretired _)
      _ = L.occupied (fun q => start q - done q) q (i + 1) (i / L.round * L.round) :=
          unretiredAt_eq hq hdone (Nat.lt_of_le_of_lt (Nat.div_mul_le_self i L.round) (by omega))
      _ ≤ room := fits_iff.mp hfits i hi q hq

/-- When item `i` has just been posted, its round is as full as it gets. -/
theorem unretired_eq {i : ℕ} (h : L.Inv base start done id log since ids (i + 1) b 0) (hb : b ≤ i)
    (hq : q < L.queues) (hdone : done q ≤ start q) : unretired q (base q) log =
      L.occupied (fun q => start q - done q) q (i + 1) (i / L.round * L.round) := by
  have hitems := h.le_items
  have hwindow := h.window
  obtain ⟨m, rfl⟩ := h.boundary.resolve_left (by omega)
  have hdiv : i / L.round = m := by
    refine Nat.div_eq_of_lt_le ?_ ?_
    · rwa [Nat.mul_comm]
    · rw [Nat.succ_mul, Nat.mul_comm]
      omega
  have hbook := h.book q
  rw [Posting.partBook_zero] at hbook
  rw [hdiv, Nat.mul_comm m, ← unretiredAt_eq hq hdone (by omega), Posting.unretired_eq hbook]

end Inv

end PostingLoop

end HMC.Machine

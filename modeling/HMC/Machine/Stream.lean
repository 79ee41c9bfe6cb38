import Mathlib.Logic.Function.Basic
import HMC.Machine.Settle

/-!
# Programs on byte streams

`Io β ρ` is what a thread does on a socket: it sends a block, receives a block of a known length or
closes its end, and goes on as the outcome tells. `Net` runs several threads over one-way channels.
A call of the socket moves as many symbols as it likes: `(i, k)` lets thread `i` move `k` of them,
so a block is cut into any pieces on either side.

Threads that do not share a port are determinate (`Net.settles_of_reach`): neither the cutting nor
the interleaving has any influence on what they receive, and one finished run shows where all
others end. `Io.run` is what a thread does by itself on a given input; `Net.reach_run` turns it into
a run of the net.

Determinacy is proved on the machine that moves one symbol at a time (`Net.unit`). There two threads
commute (`Net.unit_commutes`): a call of one adds to the end of what another one reads, and takes
from the front of what another one writes, so neither changes what the other one's next symbol is. A
call that moves several symbols is a run of such moves (`Io.move_split`), so the net of the sockets
is a coarser machine of it and ends where it does.
-/

namespace HMC.Machine

/-! ### Programs -/

/-- `send` has `bytes` left to write; `recv` has `n` symbols left to read and `got` the others. The
outcome of a `send` is whether it went through, and that of a `recv` the block, if it came. -/
inductive Io (β ρ : Type)
  | ret (r : ρ)
  | send (bytes : List β) (next : Bool → Io β ρ)
  | recv (n : ℕ) (got : List β) (next : Option (List β) → Io β ρ)
  | close (next : Io β ρ)

namespace Io

variable {β ρ τ : Type}

def bind : Io β ρ → (ρ → Io β τ) → Io β τ
  | .ret r, f => f r
  | .send bytes next, f => .send bytes fun ok => (next ok).bind f
  | .recv n got next, f => .recv n got fun r => (next r).bind f
  | .close next, f => .close (next.bind f)

instance : Monad (Io β) where
  pure := .ret
  bind := .bind

@[simp] theorem pure_eq (r : ρ) : (pure r : Io β ρ) = .ret r := rfl

@[simp] theorem bind_eq (p : Io β ρ) (f : ρ → Io β τ) : p >>= f = p.bind f := rfl

@[simp] theorem ret_bind (r : ρ) (f : ρ → Io β τ) : (ret r : Io β ρ).bind f = f r := rfl

theorem bind_ret (p : Io β ρ) : p.bind ret = p := by
  induction p with
  | ret r => rfl
  | send bytes next ih => exact congrArg (send bytes) (funext ih)
  | recv n got next ih => exact congrArg (recv n got) (funext ih)
  | close next ih => exact congrArg close ih

theorem bind_assoc {υ : Type} (p : Io β ρ) (f : ρ → Io β τ) (g : τ → Io β υ) :
    (p.bind f).bind g = p.bind fun r => (f r).bind g := by
  induction p with
  | ret r => rfl
  | send bytes next ih => exact congrArg (send bytes) (funext ih)
  | recv n got next ih => exact congrArg (recv n got) (funext ih)
  | close next ih => exact congrArg close ih

/-- Send a block. -/
def sendAll (bytes : List β) : Io β Bool := .send bytes .ret

/-- Receive a block. -/
def recvAll (n : ℕ) : Io β (Option (List β)) := .recv n [] .ret

/-- Close the socket on every path. -/
def closing (p : Io β ρ) : Io β ρ := p.bind fun r => .close (.ret r)

theorem closing_bind (p : Io β ρ) (f : ρ → Io β τ) :
    (closing p).bind f = p.bind fun r => .close (f r) := bind_assoc p _ f

/-! ### By itself -/

/-- The outcome of a program on some input: its result, what it has sent, and how much of the input
it has taken. -/
structure Ran (β ρ : Type) where
  result : ρ
  out : List β
  took : ℕ

/-- Run a program on an input; `none` when the input does not suffice, or at a `close`. -/
def run : Io β ρ → List β → Option (Ran β ρ)
  | .ret r, _ => some ⟨r, [], 0⟩
  | .send bytes next, l => ((next true).run l).map fun o => { o with out := bytes ++ o.out }
  | .recv n got next, l =>
    if n ≤ l.length then
      ((next (some (got ++ l.take n))).run (l.drop n)).map fun o => { o with took := n + o.took }
    else none
  | .close _, _ => none

@[simp] theorem run_ret (r : ρ) (l : List β) : (ret r : Io β ρ).run l = some ⟨r, [], 0⟩ := rfl

/-- One program after another. -/
theorem run_bind {p : Io β ρ} {l : List β} {o : Ran β ρ} (h : p.run l = some o)
    (f : ρ → Io β τ) : (p.bind f).run l =
      ((f o.result).run (l.drop o.took)).map fun o' =>
        ⟨o'.result, o.out ++ o'.out, o.took + o'.took⟩ := by
  induction p generalizing l o with
  | ret r =>
    obtain rfl := Option.some.inj h
    simp
  | send bytes next ih =>
    obtain ⟨q, hq, rfl⟩ := Option.map_eq_some_iff.mp h
    simp only [bind, run, ih true hq, Option.map_map]
    congr 1
    funext o'
    simp
  | recv n got next ih =>
    simp only [run] at h
    split_ifs at h with hn
    obtain ⟨q, hq, rfl⟩ := Option.map_eq_some_iff.mp h
    simp only [bind, run, if_pos hn, ih _ hq, Option.map_map, List.drop_drop]
    congr 1
    funext o'
    simp [Nat.add_assoc]
  | close next => cases h

theorem run_map {p : Io β ρ} {l : List β} {o : Ran β ρ} (h : p.run l = some o) (f : ρ → τ) :
    (p.bind fun r => .ret (f r)).run l = some ⟨f o.result, o.out, o.took⟩ := by
  rw [run_bind h]
  simp

theorem run_sendAll (bytes l : List β) : (sendAll bytes).run l = some ⟨true, bytes, 0⟩ := by
  simp [sendAll, run]

theorem run_recvAll {n : ℕ} {block : List β} (h : block.length = n) (rest : List β) :
    (recvAll n).run (block ++ rest) = some ⟨some block, [], n⟩ := by
  subst h
  simp [recvAll, run]

theorem took_le_of_run {p : Io β ρ} {l : List β} {o : Ran β ρ} (h : p.run l = some o) :
    o.took ≤ l.length := by
  induction p generalizing l o with
  | ret r =>
    obtain rfl := Option.some.inj h
    exact Nat.zero_le _
  | send bytes next ih =>
    obtain ⟨q, hq, rfl⟩ := Option.map_eq_some_iff.mp h
    exact ih true (o := q) hq
  | recv n got next ih =>
    simp only [run] at h
    split_ifs at h with hn
    obtain ⟨q, hq, rfl⟩ := Option.map_eq_some_iff.mp h
    have hle := ih _ hq
    rw [List.length_drop] at hle
    dsimp only
    omega
  | close next => cases h

/-- What follows the input that a program needs makes no difference. -/
theorem run_append {p : Io β ρ} {l : List β} {o : Ran β ρ} (h : p.run l = some o)
    (rest : List β) : p.run (l ++ rest) = some o := by
  induction p generalizing l o with
  | ret r => exact h
  | send bytes next ih =>
    obtain ⟨q, hq, rfl⟩ := Option.map_eq_some_iff.mp h
    rw [run, ih true hq]
    rfl
  | recv n got next ih =>
    simp only [run] at h
    split_ifs at h with hn
    obtain ⟨q, hq, rfl⟩ := Option.map_eq_some_iff.mp h
    have hle : n ≤ (l ++ rest).length := by
      rw [List.length_append]
      exact Nat.le_add_right_of_le hn
    rw [run, if_pos hle, List.take_append_of_le_length hn, List.drop_append_of_le_length hn,
      ih _ hq]
    rfl
  | close next => cases h

/-- The program leaves its end open. -/
def KeepsOpen : Io β ρ → Prop
  | .ret _ => True
  | .send _ next => ∀ ok, (next ok).KeepsOpen
  | .recv _ _ next => ∀ r, (next r).KeepsOpen
  | .close _ => False

theorem KeepsOpen.bind {p : Io β ρ} {f : ρ → Io β τ} (h : p.KeepsOpen)
    (hf : ∀ r, (f r).KeepsOpen) : (p.bind f).KeepsOpen := by
  induction p with
  | ret r => exact hf r
  | send bytes next ih => exact fun ok => ih ok (h ok)
  | recv n got next ih => exact fun r => ih r (h r)
  | close next => cases h

/-- The result of a program that has come to its end. -/
def returned : Io β ρ → Option ρ
  | .ret r => some r
  | _ => none

theorem returned_eq_some {p : Io β ρ} {r : ρ} : p.returned = some r ↔ p = .ret r := by
  cases p <;> simp [returned]

/-! ### One call of the socket -/

/-- What a thread sees of its socket: the symbols that have arrived, whether the other end is
closed, and whether its own end is. -/
structure View (β : Type) where
  unread : List β
  eof : Bool
  shut : Bool

/-- What one call does: how the program goes on, what was written, how much was taken, and whether
the end was closed. -/
structure Effect (β ρ : Type) where
  next : Io β ρ
  wrote : List β
  took : ℕ
  closes : Bool

/-- The next call moves nothing. -/
def atOnce (v : View β) : Io β ρ → Bool
  | .ret _ | .close _ => true
  | .send bytes _ => bytes.isEmpty || v.shut
  | .recv n _ _ => n == 0 || v.shut || (v.eof && v.unread.isEmpty)

/-- One call, which moves `k` symbols. -/
def move (v : View β) (k : ℕ) (p : Io β ρ) : Option (Effect β ρ) :=
  if p.atOnce v then
    if k = 0 then
      match p with
      | .ret _ => none
      | .close next => some ⟨next, [], 0, true⟩
      | .send bytes next => some ⟨next bytes.isEmpty, [], 0, false⟩
      | .recv n got next => some ⟨next (if n = 0 then some got else none), [], 0, false⟩
    else none
  else
    match p with
    | .ret _ | .close _ => none
    | .send bytes next =>
      if 0 < k ∧ k ≤ bytes.length then
        some ⟨.send (bytes.drop k) next, bytes.take k, 0, false⟩
      else none
    | .recv n got next =>
      if 0 < k ∧ k ≤ n ∧ k ≤ v.unread.length then
        some ⟨.recv (n - k) (got ++ v.unread.take k) next, [], k, false⟩
      else none

/-- One call, which moves one symbol or none. -/
def unitMove (v : View β) (p : Io β ρ) : Option (Effect β ρ) :=
  p.move v (if p.atOnce v then 0 else 1)

variable {v v' : View β} {k : ℕ} {p : Io β ρ} {e : Effect β ρ}

theorem took_le_of_move (h : p.move v k = some e) : e.took ≤ v.unread.length := by
  unfold move at h
  split_ifs at h
  · cases p with
    | ret r => cases h
    | close next | send bytes next | recv n got next =>
      obtain rfl := Option.some.inj h
      exact Nat.zero_le _
  · cases p with
    | ret r => cases h
    | close next => cases h
    | send bytes next =>
      dsimp only at h
      split_ifs at h
      obtain rfl := Option.some.inj h
      exact Nat.zero_le _
    | recv n got next =>
      dsimp only at h
      split_ifs at h with hk
      obtain rfl := Option.some.inj h
      exact hk.2.2

/-- Nothing is written to a socket whose end is closed. -/
theorem wrote_of_shut (h : p.move v k = some e) (hshut : v.shut = true) : e.wrote = [] := by
  unfold move at h
  split_ifs at h with hnow
  · cases p with
    | ret r => cases h
    | close next | send bytes next | recv n got next =>
      obtain rfl := Option.some.inj h
      rfl
  · cases p with
    | ret r => cases h
    | close next => cases h
    | send bytes next => simp [atOnce, hshut] at hnow
    | recv n got next =>
      dsimp only at h
      split_ifs at h
      obtain rfl := Option.some.inj h
      rfl

/-- What is to come: on an open socket a call does a part of what the program does by itself. -/
theorem run_of_move (h : p.move v k = some e) (hshut : v.shut = false) (heof : v.eof = false)
    (hopen : p.KeepsOpen) (more : List β) : e.next.KeepsOpen ∧ e.closes = false ∧
      p.run (v.unread ++ more) = (e.next.run (v.unread.drop e.took ++ more)).map fun o =>
        ⟨o.result, e.wrote ++ o.out, e.took + o.took⟩ := by
  cases p with
  | ret r => simp [move, atOnce] at h
  | close next => cases hopen
  | send bytes next =>
    unfold move at h
    split_ifs at h with hnow h0
    · obtain rfl := Option.some.inj h
      have hnil : bytes = [] := by simpa [atOnce, hshut] using hnow
      subst hnil
      exact ⟨hopen true, rfl, by simp [run]⟩
    · dsimp only at h
      split_ifs at h
      obtain rfl := Option.some.inj h
      refine ⟨hopen, rfl, ?_⟩
      simp only [run, Option.map_map, List.drop_zero]
      refine congrArg (Option.map · _) (funext fun o => ?_)
      simp [← List.append_assoc]
  | recv n got next =>
    unfold move at h
    split_ifs at h with hnow h0
    · obtain rfl := Option.some.inj h
      have hn : n = 0 := by simpa [atOnce, hshut, heof] using hnow
      subst hn
      refine ⟨hopen _, rfl, ?_⟩
      simp [run]
    · dsimp only at h
      split_ifs at h with hk
      obtain rfl := Option.some.inj h
      obtain ⟨-, hkn, hlen⟩ := hk
      refine ⟨hopen, rfl, ?_⟩
      have hdrop : v.unread.drop k ++ more = (v.unread ++ more).drop k :=
        (List.drop_append_of_le_length hlen).symm
      have htake : v.unread.take k = (v.unread ++ more).take k :=
        (List.take_append_of_le_length hlen).symm
      have hall : k ≤ (v.unread ++ more).length := by
        rw [List.length_append]
        omega
      generalize v.unread ++ more = l at *
      have hadd : k + (n - k) = n := by omega
      simp only [run, hdrop, htake, List.length_drop, List.drop_drop, hadd, List.append_assoc,
        ← List.take_add]
      by_cases hn : n ≤ l.length
      · rw [if_pos hn, if_pos (by omega), Option.map_map]
        refine congrArg (Option.map · _) (funext fun o => ?_)
        simp only [Function.comp_apply, List.nil_append, Ran.mk.injEq, true_and]
        omega
      · rw [if_neg hn, if_neg (by omega)]
        rfl

/-- More symbols may arrive, unless the other end is closed, without an effect on the next call. -/
theorem unitMove_mono (more : List β) (h : p.unitMove v = some e) (hshut : v'.shut = v.shut)
    (hunread : v'.unread = v.unread ++ more)
    (heof : v.eof = true → v'.eof = true ∧ more = []) : p.unitMove v' = some e := by
  cases p with
  | ret r => simp [unitMove, move, atOnce] at h
  | close next => exact h
  | send bytes next =>
    unfold unitMove move at h ⊢
    simp only [atOnce, hshut] at h ⊢
    exact h
  | recv n got next =>
    unfold unitMove move at h ⊢
    simp only [atOnce, hshut, hunread] at h ⊢
    by_cases hnow : n = 0 ∨ v.shut = true
    · have hl : ∀ b : Bool, (n == 0 || v.shut || b) = true := fun b => by
        obtain rfl | hs := hnow
        · simp
        · simp [hs]
      simpa [hl] using h
    · obtain ⟨hn, hs⟩ := not_or.mp hnow
      cases hu : v.unread with
      | nil =>
        cases he : v.eof with
        | false => simp [hn, hs, hu, he] at h
        | true =>
          obtain ⟨he', rfl⟩ := heof he
          simpa [hn, hs, hu, he, he'] using h
      | cons x l => simpa [hn, hs, hu] using h

/-- A call that moves several symbols first moves one. -/
theorem move_split (h : p.move v (k + 2) = some e) :
    ∃ e₁, p.unitMove v = some e₁ ∧ e₁.closes = false ∧ ∀ v' : View β, v'.shut = v.shut →
      v'.unread = v.unread.drop e₁.took → ∃ e₂, e₁.next.move v' (k + 1) = some e₂ ∧
        e = ⟨e₂.next, e₁.wrote ++ e₂.wrote, e₁.took + e₂.took, e₁.closes || e₂.closes⟩ := by
  unfold move at h
  by_cases hnow : p.atOnce v = true
  · rw [if_pos hnow, if_neg (by omega)] at h
    cases h
  rw [if_neg hnow] at h
  cases p with
  | ret r => cases h
  | close next => cases h
  | send bytes next =>
    dsimp only at h
    split_ifs at h with hk
    obtain rfl := Option.some.inj h
    have hlen := hk.2
    refine ⟨⟨.send (bytes.drop 1) next, bytes.take 1, 0, false⟩, ?_, rfl, fun v' hshut _ => ?_⟩
    · rw [unitMove, if_neg hnow, move, if_neg hnow]
      exact if_pos ⟨by omega, by omega⟩
    · simp only [atOnce, Bool.or_eq_true, not_or, List.isEmpty_iff] at hnow
      have hnow' : ¬ (send (bytes.drop 1) next : Io β ρ).atOnce v' = true := by
        simp only [atOnce, Bool.or_eq_true, not_or, List.isEmpty_iff, hshut]
        refine ⟨fun hnil => ?_, hnow.2⟩
        have := congrArg List.length hnil
        rw [List.length_drop, List.length_nil] at this
        omega
      refine ⟨⟨.send ((bytes.drop 1).drop (k + 1)) next, (bytes.drop 1).take (k + 1), 0, false⟩,
        ?_, ?_⟩
      · rw [move, if_neg hnow']
        exact if_pos ⟨by omega, by rw [List.length_drop]; omega⟩
      · rw [List.drop_drop, ← List.take_add, Nat.add_comm 1]
        rfl
  | recv n got next =>
    dsimp only at h
    split_ifs at h with hk
    obtain rfl := Option.some.inj h
    obtain ⟨-, hn, hlen⟩ := hk
    refine ⟨⟨.recv (n - 1) (got ++ v.unread.take 1) next, [], 1, false⟩, ?_, rfl,
      fun v' hshut hunread => ?_⟩
    · rw [unitMove, if_neg hnow, move, if_neg hnow]
      exact if_pos ⟨by omega, by omega, by omega⟩
    · have hlen' : v'.unread.length = v.unread.length - 1 := by rw [hunread, List.length_drop]
      simp only [atOnce, Bool.or_eq_true, Bool.and_eq_true, beq_iff_eq, not_or] at hnow
      have hnow' : ¬ (recv (n - 1) (got ++ v.unread.take 1) next : Io β ρ).atOnce v' = true := by
        simp only [atOnce, Bool.or_eq_true, Bool.and_eq_true, beq_iff_eq, List.isEmpty_iff, not_or,
          hshut]
        refine ⟨⟨by omega, hnow.1.2⟩, fun hnil => ?_⟩
        rw [hnil.2, List.length_nil] at hlen'
        omega
      refine ⟨⟨.recv (n - 1 - (k + 1)) (got ++ v.unread.take 1 ++ v'.unread.take (k + 1)) next, [],
        k + 1, false⟩, ?_, ?_⟩
      · rw [move, if_neg hnow']
        exact if_pos ⟨by omega, by omega, by omega⟩
      · rw [hunread, List.append_assoc, ← List.take_add, Nat.sub_sub, Nat.add_comm 1]
        rfl

/-- The smallest call. -/
theorem unitMove_of_move (h : p.move v k = some e) (hk : k ≤ 1) : p.unitMove v = some e := by
  suffices hgrain : (if p.atOnce v then 0 else 1) = k by rw [unitMove, hgrain, h]
  unfold move at h
  split_ifs at h ⊢ with hnow h0
  · exact h0.symm
  · cases p with
    | ret r => simp [atOnce] at hnow
    | close next => simp [atOnce] at hnow
    | send bytes next =>
      dsimp only at h
      split_ifs at h
      omega
    | recv n got next =>
      dsimp only at h
      split_ifs at h
      omega

end Io

/-! ### The net -/

/-- The channels that each thread reads and writes. -/
structure Ports (ι κ : Type) where
  inp : ι → κ
  out : ι → κ
  ne : ∀ i, inp i ≠ out i

/-- No two threads read one channel, or write one. -/
structure Ports.Private {ι κ : Type} (P : Ports ι κ) : Prop where
  inp : Function.Injective P.inp
  out : Function.Injective P.out

/-- The threads, and of each channel what was read, what is still under way and whether its writer
has closed it. -/
@[ext]
structure Net (ι κ β ρ : Type) where
  prog : ι → Io β ρ
  read : κ → List β
  wire : κ → List β
  closed : κ → Bool

namespace Net

variable {ι κ β ρ : Type} [DecidableEq ι] [DecidableEq κ] (P : Ports ι κ) (s : Net ι κ β ρ)

/-- All that was ever written to a channel. -/
def sent (c : κ) : List β := s.read c ++ s.wire c

def view (i : ι) : Io.View β := ⟨s.wire (P.inp i), s.closed (P.inp i), s.closed (P.out i)⟩

/-- Let a call of thread `i` take effect. -/
def apply (i : ι) (e : Io.Effect β ρ) : Net ι κ β ρ where
  prog := Function.update s.prog i e.next
  read c := s.read c ++ if c = P.inp i then (s.wire c).take e.took else []
  wire c := (s.wire c).drop (if c = P.inp i then e.took else 0) ++
    if c = P.out i then e.wrote else []
  closed c := s.closed c || (e.closes && c == P.out i)

/-- One call: thread `i` moves `k` symbols. -/
def step : ι × ℕ → Option (Net ι κ β ρ)
  | (i, k) => ((s.prog i).move (s.view P i) k).map (s.apply P i)

/-- One symbol at a time. -/
def unit (i : ι) : Option (Net ι κ β ρ) := ((s.prog i).unitMove (s.view P i)).map (s.apply P i)

variable {P s} {i j : ι} {e e₁ e₂ : Io.Effect β ρ}

@[simp] theorem apply_prog : (s.apply P i e).prog i = e.next := Function.update_self _ _ _

theorem apply_prog_of_ne (h : j ≠ i) : (s.apply P i e).prog j = s.prog j :=
  Function.update_of_ne h _ _

/-- Two calls of one thread. -/
theorem apply_apply : (s.apply P i e₁).apply P i e₂ =
    s.apply P i ⟨e₂.next, e₁.wrote ++ e₂.wrote, e₁.took + e₂.took, e₁.closes || e₂.closes⟩ := by
  have hne := P.ne i
  refine Net.ext (Function.update_idem _ _ _) (funext fun c => ?_) (funext fun c => ?_)
    (funext fun c => ?_)
  · simp only [apply]
    by_cases hi : c = P.inp i
    · subst hi
      simp [hne, List.take_add]
    · simp [hi]
  · simp only [apply]
    by_cases hi : c = P.inp i
    · subst hi
      simp [hne]
    · by_cases ho : c = P.out i
      · subst ho
        simp [hne.symm]
      · simp [hi, ho]
  · simp only [apply]
    cases e₁.closes <;> cases e₂.closes <;> simp

/-! ### Commuting threads -/

theorem apply_comm (hP : P.Private) (hij : i ≠ j) (h₁ : e₁.took ≤ (s.wire (P.inp i)).length)
    (h₂ : e₂.took ≤ (s.wire (P.inp j)).length) :
    (s.apply P i e₁).apply P j e₂ = (s.apply P j e₂).apply P i e₁ := by
  have hinp : ∀ {c}, c = P.inp i → c ≠ P.inp j := fun hc hc' => hij (hP.inp (hc.symm.trans hc'))
  have hout : ∀ {c}, c = P.out i → c ≠ P.out j := fun hc hc' => hij (hP.out (hc.symm.trans hc'))
  refine Net.ext (Function.update_comm hij _ _ _) (funext fun c => ?_) (funext fun c => ?_)
    (funext fun c => ?_)
  · simp only [apply]
    by_cases hi : c = P.inp i
    · subst hi
      simp [hinp rfl, List.take_append_of_le_length h₁]
    · by_cases hj : c = P.inp j
      · subst hj
        simp [hi, List.take_append_of_le_length h₂]
      · simp [hi, hj]
  · have hw : ∀ l : List β,
        (l ++ if c = P.out i then e₁.wrote else []) ++ (if c = P.out j then e₂.wrote else []) =
          (l ++ if c = P.out j then e₂.wrote else []) ++ if c = P.out i then e₁.wrote else [] := by
      intro l
      by_cases hi : c = P.out i
      · simp [hi, hout rfl]
      · simp [hi]
    simp only [apply]
    by_cases hi : c = P.inp i
    · subst hi
      simp only [hinp rfl, if_true, if_false, List.drop_zero]
      rw [List.drop_append_of_le_length h₁, hw]
    · by_cases hj : c = P.inp j
      · subst hj
        simp only [hi, if_true, if_false, List.drop_zero]
        rw [List.drop_append_of_le_length h₂, hw]
      · simp only [hi, hj, if_false, List.drop_zero]
        exact hw _
  · simp only [apply, Bool.or_assoc]
    rw [Bool.or_comm (e₁.closes && _)]

/-- What thread `j` does next, it also does after a call of another thread. -/
theorem unitMove_apply (hP : P.Private) (hij : i ≠ j) {k : ℕ}
    (hi : (s.prog i).move (s.view P i) k = some e₁)
    (hj : (s.prog j).unitMove (s.view P j) = some e₂) :
    ((s.apply P i e₁).prog j).unitMove ((s.apply P i e₁).view P j) = some e₂ := by
  have hprog : (s.apply P i e₁).prog j = s.prog j := apply_prog_of_ne hij.symm
  have hinp : P.inp j ≠ P.inp i := fun h => hij (hP.inp h).symm
  have hout : P.out j ≠ P.out i := fun h => hij (hP.out h).symm
  rw [hprog]
  refine Io.unitMove_mono (if P.inp j = P.out i then e₁.wrote else []) hj ?_ ?_ ?_
  · simp [view, apply, hout]
  · simp [view, apply, hinp]
  · intro heof
    refine ⟨by simp only [view] at heof; simp [view, apply, heof], ?_⟩
    split_ifs with hc
    · -- the writer of this channel has closed it
      exact Io.wrote_of_shut hi (by simpa [view, hc] using heof)
    · rfl

theorem unit_commutes (hP : P.Private) : Commutes (unit P : Net ι κ β ρ → ι → _) := by
  intro s i j t u hij ht hu
  obtain ⟨e₁, h₁, rfl⟩ := Option.map_eq_some_iff.mp ht
  obtain ⟨e₂, h₂, rfl⟩ := Option.map_eq_some_iff.mp hu
  refine ⟨(s.apply P i e₁).apply P j e₂, ?_, ?_⟩
  · exact Option.map_eq_some_iff.mpr ⟨e₂, unitMove_apply hP hij h₁ h₂, rfl⟩
  · refine Option.map_eq_some_iff.mpr ⟨e₁, unitMove_apply hP hij.symm h₂ h₁, ?_⟩
    exact (apply_comm hP hij (Io.took_le_of_move h₁) (Io.took_le_of_move h₂)).symm

/-! ### Cutting -/

theorem exec_unit {t : Net ι κ β ρ} {k : ℕ} (h : s.step P (i, k) = some t) :
    ∃ m, exec (unit P) s (List.replicate (m + 1) i) = some t := by
  induction k using Nat.strongRecOn generalizing s with
  | ind k ih =>
    obtain ⟨e, he, rfl⟩ := Option.map_eq_some_iff.mp h
    obtain hk | ⟨k, rfl⟩ : k ≤ 1 ∨ ∃ l, k = l + 2 := by
      obtain hk | hk := Nat.lt_or_ge k 2
      · exact .inl (by omega)
      · exact .inr ⟨k - 2, by omega⟩
    · refine ⟨0, exec_cons.mpr ⟨_, ?_, rfl⟩⟩
      exact Option.map_eq_some_iff.mpr ⟨e, Io.unitMove_of_move he hk, rfl⟩
    · obtain ⟨e₁, h₁, hopen, hrest⟩ := Io.move_split he
      obtain ⟨e₂, h₂, rfl⟩ := hrest ((s.apply P i e₁).view P i) (by simp [view, apply, hopen])
        (by simp [view, apply, P.ne i])
      have hst : (s.apply P i e₁).step P (i, k + 1) = some (s.apply P i
          ⟨e₂.next, e₁.wrote ++ e₂.wrote, e₁.took + e₂.took, e₁.closes || e₂.closes⟩) := by
        rw [← apply_apply]
        exact Option.map_eq_some_iff.mpr ⟨e₂, by rw [apply_prog]; exact h₂, rfl⟩
      obtain ⟨m, hm⟩ := ih (k + 1) (by omega) hst
      refine ⟨m + 1, exec_cons.mpr ⟨s.apply P i e₁, ?_, hm⟩⟩
      exact Option.map_eq_some_iff.mpr ⟨e₁, h₁, rfl⟩

theorem coarsens : Coarsens (unit P : Net ι κ β ρ → ι → _) (step P) where
  split s b t h := by
    obtain ⟨m, hm⟩ := exec_unit h
    exact ⟨b.1, List.replicate m b.1, hm⟩
  single s i t h := ⟨(i, _), h⟩

theorem unit_of_ret {r : ρ} (h : s.prog i = .ret r) : s.unit P i = none := by
  simp [unit, h, Io.unitMove, Io.move, Io.atOnce]

/-- A thread that has returned reads nothing any more. -/
theorem read_of_ret {r : ρ} {t : Net ι κ β ρ} (hP : P.Private) (h : Reach (step P) Free s t)
    (hret : s.prog i = .ret r) : t.prog i = .ret r ∧ t.read (P.inp i) = s.read (P.inp i) := by
  refine h.invariant (I := fun t => t.prog i = .ret r ∧ t.read (P.inp i) = s.read (P.inp i))
    ⟨hret, rfl⟩ fun u ⟨j, k⟩ t _ ⟨hprog, hread⟩ _ hst => ?_
  obtain ⟨e, he, rfl⟩ := Option.map_eq_some_iff.mp hst
  have hij : i ≠ j := by
    rintro rfl
    simp [hprog, Io.move, Io.atOnce] at he
  refine ⟨(apply_prog_of_ne hij).trans hprog, ?_⟩
  have hinp : P.inp i ≠ P.inp j := fun h => hij (hP.inp h)
  simpa [apply, hinp] using hread

/-- **Determinacy.** Threads that share no port end where one of their runs does: the run is one of
single symbols as well, these commute, and the calls of the sockets are runs of them. -/
theorem settles_of_reach {f : Net ι κ β ρ} (hP : P.Private) (h : Reach (step P) Free s f)
    (hf : ∀ i, f.unit P i = none) : Settles (step P) s f := by
  obtain ⟨as, has⟩ := h.exists_exec
  suffices hrun : ∃ bs, exec (unit P) s bs = some f by
    obtain ⟨bs, hbs⟩ := hrun
    exact .of_coarse coarsens (.of_exec (unit_commutes hP) hf hbs)
  clear hf h
  induction as generalizing s with
  | nil => exact ⟨[], has⟩
  | cons a as ih =>
    obtain ⟨t, ht, hrest⟩ := exec_cons.mp has
    obtain ⟨m, hm⟩ := exec_unit ht
    obtain ⟨bs, hbs⟩ := ih hrest
    exact ⟨_ ++ bs, exec_append.mpr ⟨t, hm, hbs⟩⟩

/-! ### Runs of one thread -/

theorem apply_self {p : Io β ρ} (h : s.prog i = p) : s.apply P i ⟨p, [], 0, false⟩ = s := by
  subst h
  refine Net.ext (Function.update_eq_self _ _) (funext fun c => ?_) (funext fun c => ?_)
    (funext fun c => ?_)
  · simp [apply]
  · simp [apply]
  · simp [apply]

theorem reach_send {bytes : List β} {next : Bool → Io β ρ} (hprog : s.prog i = .send bytes next)
    (hopen : s.closed (P.out i) = false) :
    Reach (step P) Free s (s.apply P i ⟨next true, bytes, 0, false⟩) := by
  -- the end of the loop of `sendAll`
  have hend : ∀ {t : Net ι κ β ρ}, t.prog i = .send [] next →
      t.step P (i, 0) = some (t.apply P i ⟨next true, [], 0, false⟩) := fun ht => by
    simp [step, ht, Io.move, Io.atOnce]
  cases bytes with
  | nil => exact .tail .refl trivial (hend hprog)
  | cons b l =>
    have hall : s.step P (i, l.length + 1) =
        some (s.apply P i ⟨.send [] next, b :: l, 0, false⟩) := by
      simp [step, hprog, Io.move, Io.atOnce, view, hopen]
    have hlast := hend (t := s.apply P i ⟨.send [] next, b :: l, 0, false⟩) apply_prog
    rw [apply_apply] at hlast
    simpa using Reach.tail (.tail .refl trivial hall) trivial hlast

theorem reach_recv {n : ℕ} {got : List β} {next : Option (List β) → Io β ρ}
    (hprog : s.prog i = .recv n got next) (hopen : s.closed (P.out i) = false)
    (hn : n ≤ (s.wire (P.inp i)).length) :
    Reach (step P) Free s
      (s.apply P i ⟨next (some (got ++ (s.wire (P.inp i)).take n)), [], n, false⟩) := by
  have hend : ∀ {t : Net ι κ β ρ} {got : List β}, t.prog i = .recv 0 got next →
      t.step P (i, 0) = some (t.apply P i ⟨next (some got), [], 0, false⟩) := fun ht => by
    simp [step, ht, Io.move, Io.atOnce]
  cases n with
  | zero => simpa using Reach.tail .refl trivial (hend hprog)
  | succ n =>
    have hall : s.step P (i, n + 1) = some (s.apply P i
        ⟨.recv 0 (got ++ (s.wire (P.inp i)).take (n + 1)) next, [], n + 1, false⟩) := by
      have hne : s.wire (P.inp i) ≠ [] := fun hnil => by
        rw [hnil, List.length_nil] at hn
        omega
      simp [step, hprog, Io.move, Io.atOnce, view, hopen, hne, hn]
    have hlast := hend (t := s.apply P i
        ⟨.recv 0 (got ++ (s.wire (P.inp i)).take (n + 1)) next, [], n + 1, false⟩) apply_prog
    rw [apply_apply] at hlast
    simpa using Reach.tail (.tail .refl trivial hall) trivial hlast

theorem reach_close {next : Io β ρ} (hprog : s.prog i = .close next) :
    Reach (step P) Free s (s.apply P i ⟨next, [], 0, true⟩) := by
  have hst : s.step P (i, 0) = some (s.apply P i ⟨next, [], 0, true⟩) := by
    simp [step, hprog, Io.move, Io.atOnce]
  exact .tail .refl trivial hst

/-- **A thread that finds its whole input runs as if by itself.** By induction on its program; the
input is read from the front and what it sends goes to the end of its channel. -/
theorem reach_run {τ : Type} {p : Io β τ} {f : τ → Io β ρ} {o : Io.Ran β τ}
    (hprog : s.prog i = p.bind f) (hopen : s.closed (P.out i) = false)
    (hrun : p.run (s.wire (P.inp i)) = some o) :
    Reach (step P) Free s (s.apply P i ⟨f o.result, o.out, o.took, false⟩) := by
  have hne := P.ne i
  induction p generalizing s o with
  | ret r =>
    obtain rfl := Option.some.inj hrun
    rw [Io.ret_bind] at hprog
    dsimp only
    rw [apply_self hprog]
    exact .refl
  | send bytes next ih =>
    obtain ⟨q, hq, rfl⟩ := Option.map_eq_some_iff.mp hrun
    have hfirst := reach_send hprog hopen
    have hrest := ih true (s := s.apply P i ⟨(next true).bind f, bytes, 0, false⟩) (o := q)
      apply_prog (by simp [apply, hopen]) (by simpa [apply, hne] using hq)
    rw [apply_apply] at hrest
    simpa using hfirst.trans hrest
  | recv n got next ih =>
    simp only [Io.run] at hrun
    split_ifs at hrun with hn
    obtain ⟨q, hq, rfl⟩ := Option.map_eq_some_iff.mp hrun
    have hfirst := reach_recv hprog hopen hn
    have hrest := ih _ (s := s.apply P i ⟨_, [], n, false⟩) (o := q) apply_prog
      (by simp [apply, hopen]) (by simpa [apply, hne] using hq)
    rw [apply_apply] at hrest
    simpa using hfirst.trans hrest
  | close next => cases hrun

end Net

end HMC.Machine

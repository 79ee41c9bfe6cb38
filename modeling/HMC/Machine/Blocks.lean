import Mathlib.Logic.Function.Basic
import Mathlib.Tactic.Common

/-!
# Blocks on a shared log

Several writers append to one log, each a block of its own and piece by piece. `Open` says that a
writer is inside its block. As long as nobody appends while another writer is inside, the log is a
sequence of complete blocks and at most one part of a block (`Whole.append`).

The order of the complete blocks is the order in which their writers came to an end, and is part of
the invariant: nothing else is known about it. The unfinished part is a part of the block of the one
writer that is inside, so when no writer is inside any more the log is made of whole blocks and
nothing else (`Whole.nobody`).
-/

namespace HMC.Machine

variable {τ β : Type*} {block left : τ → List β} {order : List τ} {part log : List β} {t : τ}

/-- The writer has appended a part of its block; `left` is the other part. -/
def Open (block left : τ → List β) (t : τ) : Prop := left t ≠ [] ∧ left t ≠ block t

instance [DecidableEq β] : Decidable (Open block left t) := inferInstanceAs (Decidable (_ ∧ _))

/-- The log consists of the blocks of the writers that are done, in some order, and of the part
that the writer inside its block has appended. -/
structure Whole (block left : τ → List β) (order : List τ) (part log : List β) : Prop where
  nodup : order.Nodup
  mem : ∀ t, t ∈ order ↔ left t = []
  split : log = (order.map block).flatten ++ part
  inside : ∀ t, Open block left t → part ++ left t = block t
  nobody : (∀ t, ¬ Open block left t) → part = []

namespace Whole

theorem start (hblock : ∀ t, block t ≠ []) : Whole block block [] [] [] where
  nodup := .nil
  mem t := by simp [hblock t]
  split := rfl
  inside t h := absurd rfl h.2
  nobody _ := rfl

/-- What the log holds of a block that is not complete, while nobody else is inside one. -/
theorem part_append (h : Whole block left order part log) (hleft : left t ≠ [])
    (hexcl : ∀ u, u ≠ t → ¬ Open block left u) : part ++ left t = block t := by
  by_cases hopen : Open block left t
  · exact h.inside t hopen
  · have hfresh : left t = block t := not_not.mp fun hne => hopen ⟨hleft, hne⟩
    have hpart : part = [] := h.nobody fun u => by
      by_cases hu : u = t
      · rwa [hu]
      · exact hexcl u hu
    rw [hpart, hfresh, List.nil_append]

variable [DecidableEq τ]

/-- **A piece is appended** by a writer while no other writer is inside its block. If the block is
complete with it, its writer is the next of the order; if not, the piece continues the part at the
end of the log, which was of this block or empty. -/
theorem append {piece rest : List β} (h : Whole block left order part log)
    (hleft : left t = piece ++ rest) (hpiece : piece ≠ [])
    (hexcl : ∀ u, u ≠ t → ¬ Open block left u) :
    ∃ order' part', Whole block (Function.update left t rest) order' part' (log ++ piece) := by
  have hne : left t ≠ [] := by simp [hleft, hpiece]
  have hpart := h.part_append hne hexcl
  rw [hleft] at hpart
  have hother : ∀ u, u ≠ t → ¬ Open block (Function.update left t rest) u := fun u hu hopen => by
    rw [Open, Function.update_of_ne hu] at hopen
    exact hexcl u hu hopen
  by_cases hrest : rest = []
  · -- the block is complete
    subst hrest
    rw [List.append_nil] at hpart
    have hclosed : ∀ u, ¬ Open block (Function.update left t []) u := fun u hopen => by
      by_cases hu : u = t
      · subst hu
        exact hopen.1 (Function.update_self _ _ _)
      · exact hother u hu hopen
    refine ⟨order ++ [t], [], ?_, fun u => ?_, ?_, fun u hu => absurd hu (hclosed u), fun _ => rfl⟩
    · refine List.nodup_append.mpr ⟨h.nodup, List.pairwise_singleton _ t, fun u hu v hv huv => ?_⟩
      obtain rfl := huv.trans (List.mem_singleton.mp hv)
      exact hne ((h.mem u).mp hu)
    · by_cases hu : u = t
      · simp [hu]
      · simp [hu, h.mem]
    · rw [h.split, List.map_append, List.flatten_append, List.append_assoc, hpart]
      simp
  · refine ⟨order, part ++ piece, h.nodup, fun u => ?_, ?_, fun u hu => ?_, fun hnone => ?_⟩
    · by_cases hu : u = t
      · subst hu
        simp [h.mem, hne, hrest]
      · simp [hu, h.mem]
    · rw [h.split, List.append_assoc]
    · have hut : u = t := not_not.mp fun hne => hother u hne hu
      rw [hut, Function.update_self, List.append_assoc, hpart]
    · refine absurd ⟨?_, ?_⟩ (hnone t)
      · rwa [Function.update_self]
      · rw [Function.update_self, ← hpart]
        intro hlen
        have hlen := congrArg List.length hlen
        have hpos := List.length_pos_iff.mpr hpiece
        simp only [List.length_append] at hlen
        omega

end Whole

end HMC.Machine

import HMC.Machine.CString

/-!
# Unix-socket addresses

The server of a rank listens on the socket that `udsPathFor` names, and the others dial that name.
Both copy it into `sun_path`, which has 108 bytes: a longer path is cut without an error, and the
cut may take the rank with it (`addresses_collide`). `start` removes a socket that an earlier server
left behind under the whole path, and binds the cut one. `identifies_iff` says that addresses
identify ranks exactly when the path has no zero byte and fits the field.

In a path that is not cut the rank can be read off: it stands behind the directory, in decimal, and
ends before the dot of `.sock`, so the path of one rank is not the start of that of another
(`eq_of_prefix`). That is what is needed, since the other path may be cut where this one is not. A
zero byte can only come from the directory; everything behind it is lost, the rank included
(`cStr_udsPathFor`).
-/

namespace HMC.Ctrl

open HMC.Machine

/-- `sizeof(sockaddr_un::sun_path)`. -/
def sizeofSunPath : ℕ := 108

/-- The directory without a slash at its end. -/
def trimmed (dir : List UInt8) : List UInt8 :=
  if dir.getLast? = some 47 then dir.dropLast else dir

/-- `CtrlSocketManager::udsPathFor`. -/
def udsPathFor (dir : List UInt8) (peerId : UInt32) : List UInt8 :=
  trimmed dir ++ ascii "/hmc_ctrl_rank_" ++ decimal peerId.toNat ++ ascii ".sock"

/-- What `start` does with `uds_path_`: the path it unlinks, and the `sun_path` it binds. -/
structure Listener where
  unlinked : List UInt8
  bound : List UInt8
  deriving DecidableEq

/-- The Unix half of `CtrlSocketManager::start`. -/
def startUds (udsPath : List UInt8) : Listener := ⟨cStr udsPath, snprintf sizeofSunPath udsPath⟩

/-- The `sun_path` that `dialUds_` connects to. -/
def dialUds (udsPath : List UInt8) : List UInt8 := snprintf sizeofSunPath udsPath

/-- The claim, for the server of `id` and the ones that dial it or the server of `other`. -/
structure Identifies (dir : List UInt8) (id other : UInt32) : Prop where
  distinct : (startUds (udsPathFor dir id)).bound ≠ dialUds (udsPathFor dir other)
  agree : dialUds (udsPathFor dir id) = (startUds (udsPathFor dir id)).bound
  slash : dir.getLast? ≠ some 47 →
    dialUds (udsPathFor (dir ++ [47]) id) = (startUds (udsPathFor dir id)).bound ∧
      dialUds (udsPathFor dir id) = (startUds (udsPathFor (dir ++ [47]) id)).bound
  unlinked : (startUds (udsPathFor dir id)).unlinked = cStr (startUds (udsPathFor dir id)).bound

variable {dir : List UInt8} {id other : UInt32}

/-- A slash at the end makes no difference. -/
theorem udsPathFor_slash (h : dir.getLast? ≠ some 47) :
    udsPathFor (dir ++ [47]) id = udsPathFor dir id := by
  rw [udsPathFor, udsPathFor, trimmed, trimmed, List.getLast?_concat, if_pos rfl, if_neg h,
    List.dropLast_concat]

theorem mem_trimmed {b : UInt8} (hb : b ≠ 47) : b ∈ trimmed dir ↔ b ∈ dir := by
  rw [trimmed]
  split_ifs with h
  · obtain ⟨d, rfl⟩ := List.getLast?_eq_some_iff.mp h
    simp [hb]
  · rfl

theorem zero_not_mem_decimal {n : ℕ} : 0 ∉ decimal n :=
  fun h => absurd (isDigit_of_mem_decimal h) (by decide)

/-- Only the directory can bring a zero byte into a path. -/
theorem zero_mem_udsPathFor : 0 ∈ udsPathFor dir id ↔ 0 ∈ dir := by
  have hstem : 0 ∉ ascii "/hmc_ctrl_rank_" := by decide
  have hsuffix : 0 ∉ ascii ".sock" := by decide
  simp only [udsPathFor, List.mem_append, hstem, hsuffix, zero_not_mem_decimal, or_false]
  exact mem_trimmed (by decide)

/-- A zero byte in the directory hides the rank. -/
theorem cStr_udsPathFor (h : 0 ∈ dir) : cStr (udsPathFor dir id) = cStr (trimmed dir) := by
  rw [udsPathFor, List.append_assoc, List.append_assoc]
  exact cStr_append_of_mem ((mem_trimmed (by decide)).mpr h)

/-- The start of one path is no other path. -/
theorem eq_of_prefix (h : udsPathFor dir id <+: udsPathFor dir other) : id = other := by
  rw [udsPathFor, udsPathFor, List.append_assoc _ (decimal id.toNat),
    List.append_assoc _ (decimal other.toNat), List.prefix_append_right_inj] at h
  exact UInt32.toNat_inj.mp (decimal_prefix_inj (b := 46) (by decide) h)

/-- The name under which the server of `id` is found. -/
theorem cStr_bound (h : 0 ∉ dir) : cStr (startUds (udsPathFor dir id)).bound =
    (udsPathFor dir id).take (sizeofSunPath - 1) := by
  rw [startUds, cStr_snprintf (by decide), cStr_of_not_mem fun h' => h (zero_mem_udsPathFor.mp h')]

/-- **When addresses identify ranks**: exactly when the path of the server fits `sun_path`, with its
zero at the end, and has no other zero. A path that is cut is not the one that `start` unlinks, even
where the names of the ranks still differ. -/
theorem identifies_iff (dir : List UInt8) {id other : UInt32} (hne : id ≠ other) :
    Identifies dir id other ↔ 0 ∉ dir ∧ (udsPathFor dir id).length < sizeofSunPath := by
  constructor
  · intro h
    have hzero : 0 ∉ dir := fun hz => by
      refine h.distinct ?_
      rw [startUds, dialUds, snprintf, snprintf, cStr_udsPathFor hz, cStr_udsPathFor hz]
    refine ⟨hzero, ?_⟩
    have hunlinked := h.unlinked
    rw [cStr_bound hzero, startUds, cStr_of_not_mem fun h' => hzero (zero_mem_udsPathFor.mp h')]
      at hunlinked
    have hle := List.length_take_le (sizeofSunPath - 1) (udsPathFor dir id)
    rw [← hunlinked] at hle
    exact Nat.lt_of_le_of_lt hle (by decide)
  · rintro ⟨hzero, hlen⟩
    have hbound : cStr (startUds (udsPathFor dir id)).bound = udsPathFor dir id := by
      rw [cStr_bound hzero, List.take_of_length_le (Nat.le_sub_one_of_lt hlen)]
    refine
      { distinct := fun heq => hne ?_
        agree := rfl
        slash := fun h => ?_
        unlinked := ?_ }
    · -- the rank is read off the start of the path that both would have
      have hother : cStr (dialUds (udsPathFor dir other)) =
          (udsPathFor dir other).take (sizeofSunPath - 1) := cStr_bound hzero
      have hpre : udsPathFor dir id <+: udsPathFor dir other := by
        rw [← hbound, heq, hother]
        exact List.take_prefix _ _
      exact eq_of_prefix hpre
    · rw [udsPathFor_slash h]
      exact ⟨rfl, rfl⟩
    · rw [hbound]
      exact cStr_of_not_mem fun h => hzero (zero_mem_udsPathFor.mp h)

/-- A short directory. -/
theorem identifies_tmp : Identifies (ascii "/tmp") 7 8 :=
  (identifies_iff (ascii "/tmp") (by decide)).mpr (by decide)

/-- A directory of 100 bytes. -/
def longDir : List UInt8 := List.replicate 100 97

/-- **Two servers on one address.** All ranks have the same one, and none of them unlinks it. -/
theorem addresses_collide :
    (startUds (udsPathFor longDir 0)).bound = dialUds (udsPathFor longDir 1) ∧
      (startUds (udsPathFor longDir 0)).unlinked ≠
        cStr (startUds (udsPathFor longDir 0)).bound ∧ ¬ Identifies longDir 0 1 := by
  have hcollide : (startUds (udsPathFor longDir 0)).bound = dialUds (udsPathFor longDir 1) := by
    decide +kernel
  exact ⟨hcollide, by decide +kernel, fun h => h.distinct hcollide⟩

end HMC.Ctrl

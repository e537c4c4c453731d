import AmneziaWg.Junk.Spec
import AmneziaWg.Imitate.Writers
import AmneziaWg.Lib.Stepwise
import Mathlib.Order.Fin.Basic

/-!
# The obfuscation configuration of a device

`struct magic_header`, the obfuscation part of `struct wg_device` with its
initial values, and the validation at the end of a configuration request,
`wg_device_handle_post_config`. The validation adjusts `jmax` before it checks,
and compiles the I-packets one after the other after it.

* **Model**: `mhParse`, `mhValidate`, `WgDevice`, `wgDeviceHandlePostConfig`.
* **Outcomes**: `postConfig_cases`, and what an accepted device satisfies,
  `postConfig_sound`.
-/

namespace AmneziaWg

open Linux Junk Stepwise

/-! ## Magic headers -/

/-- `struct magic_header`: a range of type words. -/
structure MagicHeader where
  start : U32
  stop : U32
deriving DecidableEq, Repr

/-- `mh_parse`: the range it leaves, and its error. `start` is stored before `end` is
read, and both before they are compared. -/
def mhParse (mh : MagicHeader) (desc : Option Bytes) : Outcome MagicHeader Errno :=
  match strsep (chr '-') desc with
  | (none, _) => ⟨mh, some .EINVAL⟩
  | (some val, desc) =>
    match kstrtouint 10 val with
    | .error e => ⟨mh, some e⟩
    | .ok start =>
      match desc with
      | none => ⟨⟨start, start⟩, none⟩
      | some desc =>
        match kstrtouint 10 desc with
        | .error e => ⟨⟨start, mh.stop⟩, some e⟩
        | .ok stop => ⟨⟨start, stop⟩, if start > stop then some .EINVAL else none⟩

/-- `mh_validate`, on the type word in host order. -/
def mhValidate (received : U32) (mh : MagicHeader) : Prop :=
  mh.start ≤ received ∧ received ≤ mh.stop

instance (received : U32) (mh : MagicHeader) : Decidable (mhValidate received mh) :=
  inferInstanceAs (Decidable (_ ∧ _))

/-- `get_random_u32_inclusive`, from one 32-bit draw. For the range of all words the
remainder is by `0`, and the draw itself. -/
def getRandomU32Inclusive (rand floor ceil : U32) : U32 := floor + rand % (ceil - floor + 1)

def mhGenheader (rand : U32) (mh : MagicHeader) : U32 :=
  getRandomU32Inclusive rand mh.start mh.stop

/-- The test of the overlap check. -/
def MagicHeader.Apart (a b : MagicHeader) : Prop := b.stop < a.start ∨ a.stop < b.start

instance (a b : MagicHeader) : Decidable (a.Apart b) := inferInstanceAs (Decidable (_ ∨ _))

/-! ## The device -/

/-- The obfuscation configuration of `struct wg_device`. -/
@[ext]
structure WgDevice where
  ispecs : Fin 5 → JpSpec
  headers : MsgIdx → MagicHeader
  junkSize : MsgIdx → U16
  jc : U16
  jmin : U16
  jmax : U16
  advancedSecurity : Bool
  imitateProto : ImitateProto

/-- What `wg_setup` leaves in a new device. -/
def wgSetup : WgDevice where
  ispecs := fun _ => ⟨none, none, [], 0⟩
  headers := fun k => ⟨k.messageType, k.messageType⟩
  junkSize := fun _ => 0
  jc := 0
  jmin := 0
  jmax := 0
  advancedSecurity := false
  imitateProto := .none

/-- The device, and the number of allocations made so far. -/
structure DevState where
  dev : WgDevice
  next : ℕ

/-! ## Validation -/

/-- `if (wg->jc && wg->jmin == wg->jmax) wg->jmax++`, in 16 bits. -/
def adjustJmax (wg : WgDevice) : WgDevice :=
  if wg.jc ≠ 0 ∧ wg.jmin = wg.jmax then { wg with jmax := wg.jmax + 1 } else wg

/-- The order of `headers` and `junk_size`. -/
def msgIdxs : List MsgIdx := [.init, .response, .cookie, .transport]

/-- A padded message of the kind fits the largest datagram. -/
def JunkFits (wg : WgDevice) (k : MsgIdx) : Prop :=
  (wg.junkSize k).toNat + k.messageSize ≤ messageMaxSize

instance (wg : WgDevice) (k : MsgIdx) : Decidable (JunkFits wg k) :=
  inferInstanceAs (Decidable (_ ≤ _))

/-- The checks between the adjustment and the I-packets. -/
structure Valid (wg : WgDevice) : Prop where
  jmax_lt : wg.jmax.toNat < messageMaxSize
  jmin_le : wg.jmax = 0 ∨ wg.jmin ≤ wg.jmax
  junk : ∀ k ∈ msgIdxs, JunkFits wg k
  headers : (msgIdxs.map wg.headers).Pairwise MagicHeader.Apart

/-- Compile one I-packet in place. -/
def setupIspec (mem : Kmalloc) (n : Fin 5) (s : DevState) : Outcome DevState Errno :=
  let r := jpSpecSetup mem s.next (s.dev.ispecs n)
  ⟨⟨{ s.dev with ispecs := Function.update s.dev.ispecs n r.spec }, r.next⟩, r.err⟩

instance ispec_neZero : NeZero 5 := ⟨by decide⟩

/-- The order of `ispecs`. -/
def ispecIdxs : List (Fin 5) := [0, 1, 2, 3, 4]

/-- The loop over `ispecs`. -/
def setupIspecs (mem : Kmalloc) (s : DevState) : Outcome DevState Errno :=
  run (setupIspec mem) ispecIdxs s

def wgDeviceHandlePostConfig (mem : Kmalloc) (s : DevState) : Outcome DevState Errno :=
  if ¬ s.dev.advancedSecurity then ⟨s, none⟩
  else
    let wg := adjustJmax s.dev
    if wg.jmax.toNat ≥ messageMaxSize then ⟨⟨wg, s.next⟩, some .EINVAL⟩
    else if wg.jmax ≠ 0 ∧ wg.jmax < wg.jmin then ⟨⟨wg, s.next⟩, some .EINVAL⟩
    else if ¬ ∀ k ∈ msgIdxs, JunkFits wg k then ⟨⟨wg, s.next⟩, some .EINVAL⟩
    else if ¬ (msgIdxs.map wg.headers).Pairwise MagicHeader.Apart then
      ⟨⟨wg, s.next⟩, some .EINVAL⟩
    else setupIspecs mem ⟨wg, s.next⟩

/-! ## Compiling the I-packets -/

variable {s : DevState}

variable {wg : WgDevice}

section Compile

variable {mem : Kmalloc}

/-- The call of `jp_spec_setup` on I-packet `m`, with the allocations from `idx m` on. -/
def setupOf (mem : Kmalloc) (idx : Fin 5 → ℕ) (wg : WgDevice) (m : Fin 5) : Setup :=
  jpSpecSetup mem (idx m) (wg.ispecs m)

/-- The device with the I-packets that satisfy `p` compiled. -/
def compiled (mem : Kmalloc) (idx : Fin 5 → ℕ) (p : Fin 5 → Prop) [DecidablePred p]
    (wg : WgDevice) : WgDevice :=
  { wg with ispecs := fun m => if p m then (setupOf mem idx wg m).spec else wg.ispecs m }

variable {idx : Fin 5 → ℕ}

theorem compiled_congr {p q : Fin 5 → Prop} [DecidablePred p] [DecidablePred q] (h : ∀ m, p m ↔ q m)
    (wg : WgDevice) : compiled mem idx p wg = compiled mem idx q wg := by
  unfold compiled
  simp only [h]

theorem setupOf_other {a m : Fin 5} (h : m ≠ a) (s : DevState) :
    setupOf mem idx (setupIspec mem a s).state.dev m =
      setupOf mem (Function.update idx a s.next) s.dev m := by
  unfold setupOf setupIspec
  dsimp only
  rw [Function.update_of_ne h, Function.update_of_ne h]

theorem setupOf_self (idx : Fin 5 → ℕ) (a : Fin 5) (s : DevState) :
    setupOf mem (Function.update idx a s.next) s.dev a =
      jpSpecSetup mem s.next (s.dev.ispecs a) := by
  rw [setupOf, Function.update_self]

variable {ms : List (Fin 5)}

/-- Compiling `a` and then the others, which are different from it. -/
theorem compiled_cons {a : Fin 5} (ha : a ∉ ms) (s : DevState) :
    compiled mem idx (· ∈ ms) (setupIspec mem a s).state.dev =
      compiled mem (Function.update idx a s.next) (· ∈ a :: ms) s.dev := by
  refine WgDevice.ext ?_ rfl rfl rfl rfl rfl rfl rfl
  funext m
  show (if m ∈ ms then _ else Function.update s.dev.ispecs a _ m) = if m ∈ a :: ms then _ else _
  by_cases hm : m = a
  · subst hm
    rw [if_neg ha, if_pos (List.mem_cons_self ..), setupOf_self, Function.update_self]
  · have hmem : m ∈ a :: ms ↔ m ∈ ms := by
      rw [List.mem_cons]
      exact or_iff_right hm
    rw [setupOf_other hm, Function.update_of_ne hm]
    simp only [hmem]

/-- A part of the loop without error compiles its I-packets. -/
theorem run_setupIspec (hnodup : ms.Nodup) (h : (run (setupIspec mem) ms s).err = none) :
    ∃ idx, (run (setupIspec mem) ms s).state.dev = compiled mem idx (· ∈ ms) s.dev ∧
      ∀ m ∈ ms, (setupOf mem idx s.dev m).err = none := by
  induction ms generalizing s with
  | nil => exact ⟨fun _ => 0, rfl, fun m hm => nomatch hm⟩
  | cons a ms ih =>
    rcases List.nodup_cons.mp hnodup with ⟨ha, hnodup⟩
    rcases Outcome.andThen_success h with ⟨hok, heq⟩
    rw [run, heq] at h ⊢
    rcases ih hnodup h with ⟨idx, hdev, herr⟩
    -- the first I-packet is compiled at the current allocation
    refine ⟨Function.update idx a s.next, hdev.trans (compiled_cons ha s), ?_⟩
    intro m hm
    rcases List.mem_cons.mp hm with rfl | hms
    · rw [setupOf_self]
      exact hok
    · have hne : m ≠ a := by
        rintro rfl
        exact ha hms
      rw [← setupOf_other hne]
      exact herr m hms

/-- I-packets that all compile in place leave no error. -/
theorem run_setupIspec_ok (hnodup : ms.Nodup)
    (h : ∀ m ∈ ms, ∀ i, (jpSpecSetup mem i (s.dev.ispecs m)).err = none) :
    (run (setupIspec mem) ms s).err = none := by
  induction ms generalizing s with
  | nil => rfl
  | cons a ms ih =>
    rcases List.nodup_cons.mp hnodup with ⟨ha, hnodup⟩
    rcases List.forall_mem_cons.mp h with ⟨hfirst, hrest⟩
    rw [run, Outcome.andThen_of_none (hfirst s.next)]
    refine ih hnodup ?_
    intro m hm i
    -- the others are as they were
    have hne : m ≠ a := by
      rintro rfl
      exact ha hm
    show (jpSpecSetup mem i (Function.update s.dev.ispecs a _ m)).err = none
    rw [Function.update_of_ne hne]
    exact hrest m hm i

theorem mem_ispecIdxs : ∀ m, m ∈ ispecIdxs := by decide

theorem setupIspecs_success (h : (setupIspecs mem s).err = none) :
    ∃ idx, (setupIspecs mem s).state.dev = compiled mem idx (fun _ => True) s.dev ∧
      ∀ m, (setupOf mem idx s.dev m).err = none := by
  rcases run_setupIspec (by decide) h with ⟨idx, hdev, herr⟩
  refine ⟨idx, hdev.trans (compiled_congr ?_ _), fun m => herr m (mem_ispecIdxs m)⟩
  intro m
  exact iff_true_intro (mem_ispecIdxs m)

/-- The list of I-packets is in order and complete. -/
theorem mem_before_iff {done rest : List (Fin 5)} {n : Fin 5}
    (hsplit : ispecIdxs = done ++ n :: rest) (m : Fin 5) : m ∈ done ↔ m < n := by
  have hsorted : (done ++ n :: rest).Pairwise (· < ·) := by
    rw [← hsplit]
    decide
  rcases List.pairwise_append.mp hsorted with ⟨-, hrest, hcross⟩
  constructor
  · intro hm
    exact hcross m hm n (List.mem_cons_self ..)
  · intro hmn
    have hm := mem_ispecIdxs m
    rw [hsplit] at hm
    rcases List.mem_append.mp hm with hm | hm
    · exact hm
    · -- everything from `n` on is at least `n`
      rcases List.mem_cons.mp hm with rfl | hm
      · exact absurd hmn (lt_irrefl m)
      · exact absurd hmn (lt_asymm ((List.pairwise_cons.mp hrest).1 m hm))

/-- Compiling one more I-packet after those before it. -/
theorem compiled_concat {n : Fin 5} {w : DevState} (hw : w.dev = compiled mem idx (· < n) wg) :
    (setupIspec mem n w).state.dev = compiled mem (Function.update idx n w.next) (· ≤ n) wg ∧
      jpSpecSetup mem w.next (w.dev.ispecs n) =
        setupOf mem (Function.update idx n w.next) wg n := by
  have hspec : w.dev.ispecs n = wg.ispecs n := by
    rw [hw]
    exact if_neg (lt_irrefl n)
  have hself : jpSpecSetup mem w.next (w.dev.ispecs n) =
      setupOf mem (Function.update idx n w.next) wg n := by
    rw [setupOf, Function.update_self, hspec]
  refine ⟨?_, hself⟩
  show ({ w.dev with ispecs := Function.update w.dev.ispecs n _ } : WgDevice) = _
  rw [hself, hw]
  refine WgDevice.ext ?_ rfl rfl rfl rfl rfl rfl rfl
  funext m
  dsimp only
  rcases lt_trichotomy m n with hm | rfl | hm
  · -- compiled before
    rw [Function.update_of_ne (ne_of_lt hm)]
    simp only [compiled, setupOf, hm, le_of_lt hm, Function.update_of_ne (ne_of_lt hm)]
  · rw [Function.update_self]
    exact (if_pos (le_refl m)).symm
  · -- not yet reached
    rw [Function.update_of_ne (ne_of_gt hm)]
    simp only [compiled, not_lt_of_gt hm, not_le_of_gt hm, ↓reduceIte]

/-- When I-packet `n` fails, those before it are compiled, `n` is left as the failed
call left it, and those behind it are untouched. -/
theorem setupIspecs_error {e : Errno} (h : (setupIspecs mem s).err = some e) :
    ∃ n idx, (setupIspecs mem s).state.dev = compiled mem idx (· ≤ n) s.dev ∧
      (∀ m < n, (setupOf mem idx s.dev m).err = none) ∧ (setupOf mem idx s.dev n).err = some e := by
  rcases run_error h with ⟨done, n, rest, hsplit, hdone, hn, hstate⟩
  have hlt := mem_before_iff hsplit
  have hnodup : done.Nodup := by
    have hall : (done ++ n :: rest).Nodup := by
      rw [← hsplit]
      decide
    exact (List.nodup_append.mp hall).1
  rcases run_setupIspec hnodup hdone with ⟨idx, hdev, herr⟩
  rw [run_success hdone, compiled_congr hlt] at hdev
  rcases compiled_concat hdev with ⟨hlast, hself⟩
  refine ⟨n, Function.update idx n (written (setupIspec mem) done s).next, ?_, ?_, ?_⟩
  · rw [← hlast, setupIspecs, hstate, written, List.foldl_append]
    rfl
  · intro m hmn
    rw [setupOf, Function.update_of_ne (ne_of_lt hmn)]
    exact herr m ((hlt m).mpr hmn)
  · rw [← hself]
    exact hn

end Compile

/-! ## Outcomes -/

/-- Validation rejects the adjusted device, or it goes on to the I-packets. -/
theorem postConfig_cases (mem : Kmalloc) (s : DevState) :
    (s.dev.advancedSecurity = false ∧ wgDeviceHandlePostConfig mem s = ⟨s, none⟩) ∨
    (s.dev.advancedSecurity = true ∧ ¬ Valid (adjustJmax s.dev) ∧
      wgDeviceHandlePostConfig mem s = ⟨⟨adjustJmax s.dev, s.next⟩, some .EINVAL⟩) ∨
    (s.dev.advancedSecurity = true ∧ Valid (adjustJmax s.dev) ∧
      wgDeviceHandlePostConfig mem s = setupIspecs mem ⟨adjustJmax s.dev, s.next⟩) := by
  unfold wgDeviceHandlePostConfig
  split
  · next hadv => exact .inl ⟨Bool.eq_false_iff.mpr hadv, rfl⟩
  next hadv =>
  have hadv' : s.dev.advancedSecurity = true := by
    by_contra h
    exact hadv h
  dsimp only
  split
  · next h => exact .inr (.inl ⟨hadv', fun hv => absurd hv.jmax_lt (by omega), rfl⟩)
  next hmax =>
  split
  · next h =>
    refine .inr (.inl ⟨hadv', ?_, rfl⟩)
    intro hv
    rcases hv.jmin_le with hz | hle
    · exact h.1 hz
    · exact absurd h.2 (BitVec.not_lt.mpr hle)
  next hmin =>
  split
  · next h => exact .inr (.inl ⟨hadv', fun hv => h hv.junk, rfl⟩)
  next hjunk =>
  split
  · next h => exact .inr (.inl ⟨hadv', fun hv => h hv.headers, rfl⟩)
  next hheaders =>
  refine .inr (.inr ⟨hadv', ?_, rfl⟩)
  constructor
  · omega
  · by_contra h
    rw [not_or] at h
    exact hmin ⟨h.1, BitVec.not_le.mp h.2⟩
  · exact not_not.mp hjunk
  · exact not_not.mp hheaders

/-- An accepted device is the adjusted one, which is valid, with its I-packets compiled. -/
theorem postConfig_accepted {mem : Kmalloc} (hadv : s.dev.advancedSecurity = true)
    (h : (wgDeviceHandlePostConfig mem s).err = none) :
    Valid (adjustJmax s.dev) ∧ ∃ idx,
      (wgDeviceHandlePostConfig mem s).state.dev =
        compiled mem idx (fun _ => True) (adjustJmax s.dev) ∧
      ∀ m, (setupOf mem idx (adjustJmax s.dev) m).err = none := by
  rcases postConfig_cases mem s with ⟨hoff, -⟩ | ⟨-, -, heq⟩ | ⟨-, hvalid, heq⟩
  · rw [hadv] at hoff
    cases hoff
  · rw [heq] at h
    cases h
  · rw [heq] at h ⊢
    rcases setupIspecs_success h with ⟨idx, hdev, herr⟩
    exact ⟨hvalid, idx, hdev, herr⟩

/-! ## Soundness of validation -/

/-- The junk packet sizes that pass although they leave no room between `jmin` and `jmax`:
a zero `jmax` is not compared with `jmin`, and the increment of the largest one wraps to zero. -/
def JmaxZeroed (wg : WgDevice) : Prop :=
  wg.jc ≠ 0 ∧ wg.jmin ≠ 0 ∧
    (wg.jmax = 0 ∨ wg.jmin = BitVec.allOnes 16 ∧ wg.jmax = BitVec.allOnes 16)

theorem mem_msgIdxs (k : MsgIdx) : k ∈ msgIdxs := by
  cases k <;> decide

theorem adjustJmax_jc (wg : WgDevice) : (adjustJmax wg).jc = wg.jc := by
  unfold adjustJmax
  split <;> rfl

theorem adjustJmax_jmin (wg : WgDevice) : (adjustJmax wg).jmin = wg.jmin := by
  unfold adjustJmax
  split <;> rfl

theorem adjustJmax_headers (wg : WgDevice) : (adjustJmax wg).headers = wg.headers := by
  unfold adjustJmax
  split <;> rfl

/-- The increment of `jmax` in 16 bits. -/
theorem adjustJmax_jmax (wg : WgDevice) : (adjustJmax wg).jmax.toNat =
    if wg.jc ≠ 0 ∧ wg.jmin = wg.jmax then (wg.jmax.toNat + 1) % 2 ^ 16 else wg.jmax.toNat := by
  unfold adjustJmax
  split
  · exact BitVec.toNat_add ..
  · rfl

/-- A valid device has `jmin` below `jmax` exactly if `jmax` is not zeroed. -/
theorem Valid.jmin_lt_iff (h : Valid (adjustJmax wg)) :
    (wg.jc = 0 ∨ wg.jmin < (adjustJmax wg).jmax) ↔ ¬ JmaxZeroed wg := by
  have hlt := h.jmax_lt
  have hle : (adjustJmax wg).jmax.toNat = 0 ∨ wg.jmin.toNat ≤ (adjustJmax wg).jmax.toNat := by
    rcases h.jmin_le with hzero | hle
    · left
      rw [hzero]
      rfl
    · right
      rw [← adjustJmax_jmin]
      exact hle
  have hmin := wg.jmin.isLt
  have hmax := wg.jmax.isLt
  -- the comparisons as comparisons of numbers
  have hzero : ∀ u : U16, u = 0 ↔ u.toNat = 0 := fun u => (BitVec.toNat_inj (y := 0)).symm
  have hones : ∀ u : U16, u = BitVec.allOnes 16 ↔ u.toNat = 65535 := fun u =>
    (BitVec.toNat_inj (y := BitVec.allOnes 16)).symm
  unfold JmaxZeroed
  rw [BitVec.lt_def]
  by_cases hjc : wg.jc = 0
  · exact ⟨fun _ hz => hz.1 hjc, fun _ => Or.inl hjc⟩
  rw [or_iff_right hjc]
  simp only [ne_eq, hjc, not_false_eq_true, true_and, hzero wg.jmin, hzero wg.jmax, hones]
  rw [adjustJmax_jmax] at hlt hle ⊢
  unfold messageMaxSize at hlt
  by_cases heq : wg.jmin = wg.jmax
  · have heq' : wg.jmin.toNat = wg.jmax.toNat := congrArg BitVec.toNat heq
    rw [if_pos ⟨hjc, heq⟩] at hlt hle ⊢
    omega
  · have heq' : wg.jmin.toNat ≠ wg.jmax.toNat := fun hnat => heq (BitVec.eq_of_toNat_eq hnat)
    rw [if_neg (fun hand => heq hand.2)] at hlt hle ⊢
    omega

/-- Ranges that are apart share no word. -/
theorem MagicHeader.Apart.disjoint {a b : MagicHeader} (h : a.Apart b) {word : U32}
    (ha : mhValidate word a) (hb : mhValidate word b) : False := by
  rcases h with h | h
  · exact absurd (BitVec.le_trans ha.1 hb.2) (BitVec.not_le.mpr h)
  · exact absurd (BitVec.le_trans hb.1 ha.2) (BitVec.not_le.mpr h)

/-- The pairs of the overlap check are all pairs of different kinds. -/
theorem headers_apart (h : (msgIdxs.map wg.headers).Pairwise MagicHeader.Apart) {j k : MsgIdx}
    (hne : j ≠ k) : (wg.headers j).Apart (wg.headers k) := by
  have hsymm : ∀ {a b : MagicHeader}, a.Apart b → b.Apart a := Or.symm
  simp only [msgIdxs, List.map_cons, List.map_nil, List.pairwise_cons, List.forall_mem_cons] at h
  rcases h with ⟨⟨h01, h02, h03, -⟩, ⟨h12, h13, -⟩, ⟨h23, -⟩, -⟩
  cases j <;> cases k
  all_goals first
    | exact absurd rfl hne
    | assumption
    | exact hsymm (by assumption)

/-- What the validation promises of an accepted device. The room between `jmin` and `jmax`
is there exactly if `jmax` is not zeroed; the rest always holds. -/
theorem postConfig_sound {mem : Kmalloc} {s : DevState} (hadv : s.dev.advancedSecurity = true)
    (hranges : ∀ k, (s.dev.headers k).start ≤ (s.dev.headers k).stop)
    (h : (wgDeviceHandlePostConfig mem s).err = none) :
    let wg := (wgDeviceHandlePostConfig mem s).state.dev
    ((wg.jc = 0 ∨ wg.jmin < wg.jmax) ↔ ¬ JmaxZeroed s.dev) ∧
    wg.jmax.toNat < messageMaxSize ∧
    (∀ k, (wg.junkSize k).toNat + k.messageSize ≤ messageMaxSize) ∧
    (∀ k, (wg.headers k).start ≤ (wg.headers k).stop) ∧
    ∀ word j k, mhValidate word (wg.headers j) → mhValidate word (wg.headers k) → j = k := by
  rcases postConfig_accepted hadv h with ⟨hvalid, idx, hdev, -⟩
  rw [hdev]
  -- compiling the I-packets leaves the fields that are checked
  have hjmin : (adjustJmax s.dev).jc = 0 ∨ (adjustJmax s.dev).jmin < (adjustJmax s.dev).jmax ↔
      ¬ JmaxZeroed s.dev := by
    rw [adjustJmax_jc, adjustJmax_jmin]
    exact hvalid.jmin_lt_iff
  refine ⟨hjmin, hvalid.jmax_lt, fun k => hvalid.junk k (mem_msgIdxs k), ?_, ?_⟩
  · intro k
    show ((adjustJmax s.dev).headers k).start ≤ ((adjustJmax s.dev).headers k).stop
    rw [adjustJmax_headers]
    exact hranges k
  · intro word j k hj hk
    by_contra hne
    exact (headers_apart hvalid.headers hne).disjoint hj hk

/-- A new device with one junk packet of 5 to `jmax` bytes. -/
def junkDevice (jmax : U16) : WgDevice :=
  { wgSetup with advancedSecurity := true, jc := 1, jmin := 5, jmax := jmax }

theorem postConfig_sound_junk :
    (wgDeviceHandlePostConfig .generous ⟨junkDevice 9, 0⟩).err = none ∧
    ¬ JmaxZeroed (junkDevice 9) ∧
    (((wgDeviceHandlePostConfig .generous ⟨junkDevice 9, 0⟩).state.dev.jc = 0 ∨
      (wgDeviceHandlePostConfig .generous ⟨junkDevice 9, 0⟩).state.dev.jmin <
        (wgDeviceHandlePostConfig .generous ⟨junkDevice 9, 0⟩).state.dev.jmax) ↔
      ¬ JmaxZeroed (junkDevice 9)) :=
  ⟨by decide, by unfold JmaxZeroed; decide,
    (postConfig_sound (s := ⟨junkDevice 9, 0⟩) rfl (by intro k; cases k <;> decide)
      (by decide)).1⟩

/-- With `jmax` left at zero the validation accepts a `jmin` above it. -/
theorem postConfig_jmax_zero :
    (wgDeviceHandlePostConfig .generous ⟨junkDevice 0, 0⟩).err = none ∧
    (wgDeviceHandlePostConfig .generous ⟨junkDevice 0, 0⟩).state.dev.jc ≠ 0 ∧
    ¬ (wgDeviceHandlePostConfig .generous ⟨junkDevice 0, 0⟩).state.dev.jmin <
      (wgDeviceHandlePostConfig .generous ⟨junkDevice 0, 0⟩).state.dev.jmax := by
  decide

end AmneziaWg

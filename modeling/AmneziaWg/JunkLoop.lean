import AmneziaWg.Netlink
import AmneziaWg.Lib.Machine

/-!
# The junk-packet loop under reconfiguration

`wg_packet_send_handshake_initiation` allocates a buffer of `jmax` bytes once and
then draws the size of every junk packet between the current `jmin` and the
current `jmax`. It holds no lock that a configuration request takes.

* **Model**: `Machine` steps for a request, the allocation, one iteration and the
  end of the loop; every size handed to `wg_fill_junk` is recorded with the buffer.
* **Safety**: `step_inv` (one step), `handed_within_buffer` (every run whose requests
  leave the running loop room).
* **Failure**: `handed_beyond_buffer`, a run in which a request raises `jmax`.
-/

namespace AmneziaWg.JunkLoop

open Linux Stepwise

/-! ## Model layer -/

/-- A running loop: the buffer's size, `none` for `NULL`, and `junk_packet_count`. -/
structure Loop where
  buffer : Option ℕ
  remaining : ℕ
deriving DecidableEq, Repr

/-- A size handed to `wg_fill_junk` and `wg_socket_send_buffer_to_peer`. -/
structure Handed where
  size : ℕ
  buffer : Option ℕ
deriving DecidableEq, Repr

structure St where
  host : DevState
  loop : Option Loop
  handed : List Handed

/-- A new device, no loop. -/
def init : St := ⟨⟨wgSetup, 0⟩, none, []⟩

inductive Label where
  | setDevice (mem : Kmalloc) (req : Request)
  | start (granted : Bool)
  | iterate (rand : U32)
  | finish

/-- `(u16) get_random_u32_inclusive(wg->jmin, wg->jmax)`. -/
def junkPacketSize (rand : U32) (wg : WgDevice) : U16 :=
  (getRandomU32Inclusive rand (wg.jmin.setWidth 32) (wg.jmax.setWidth 32)).setWidth 16

/-- Only requests that pass validation are steps. The result of `kzalloc` is not
tested. -/
def step (s : St) : Label → Option St
  | .setDevice mem req =>
    if (configure mem req s.host).err = none then
      some { s with host := (configure mem req s.host).state }
    else none
  | .start granted =>
    if s.loop = none ∧ s.host.dev.jc ≠ 0 ∧ s.host.dev.jmax ≠ 0 then
      let buffer := if granted then some s.host.dev.jmax.toNat else none
      some { s with loop := some ⟨buffer, s.host.dev.jc.toNat⟩ }
    else none
  | .iterate rand =>
    match s.loop with
    | some ⟨buffer, n + 1⟩ =>
      some { s with
        loop := some ⟨buffer, n⟩
        handed := s.handed ++ [⟨(junkPacketSize rand s.host.dev).toNat, buffer⟩] }
    | _ => none
  | .finish =>
    match s.loop with
    | some ⟨_, 0⟩ => some { s with loop := none }
    | _ => none

def machine : Machine St Label := ⟨step⟩

/-- Every size handed over is within the buffer that was allocated. -/
def WithinBuffer (s : St) : Prop := ∀ p ∈ s.handed, ∀ b, p.buffer = some b → p.size ≤ b

/-! ## What a request leaves -/

/-- `jmin` after an accepted request. -/
def newJmin (req : Request) (wg : WgDevice) : U16 := req.jmin.getD wg.jmin

/-- `jmax` after an accepted request, the adjustment of the validation included. -/
def newJmax (req : Request) (wg : WgDevice) : U16 :=
  let jmax := req.jmax.getD wg.jmax
  if req.jc.getD wg.jc ≠ 0 ∧ newJmin req wg = jmax then jmax + 1 else jmax

/-- A request leaves a loop that still has packets to send room for them. -/
def LeavesRoom (loop : Option Loop) (req : Request) (wg : WgDevice) : Prop :=
  match loop with
  | some ⟨some b, _ + 1⟩ =>
    newJmin req wg ≤ newJmax req wg ∧ (newJmax req wg).toNat ≤ b
  | _ => True

/-- The condition on a step: requests leave a running loop room. -/
def Admissible (s : St) : Label → Prop
  | .setDevice _ req => LeavesRoom s.loop req s.host.dev
  | _ => True

instance (loop : Option Loop) (req : Request) (wg : WgDevice) :
    Decidable (LeavesRoom loop req wg) :=
  match loop with
  | none => .isTrue trivial
  | some ⟨none, _⟩ => .isTrue trivial
  | some ⟨some _, 0⟩ => .isTrue trivial
  | some ⟨some _, _ + 1⟩ => inferInstanceAs (Decidable (_ ∧ _))

instance (s : St) (l : Label) : Decidable (Admissible s l) :=
  match l with
  | .setDevice _ _ => inferInstanceAs (Decidable (LeavesRoom ..))
  | .start _ => .isTrue trivial
  | .iterate _ => .isTrue trivial
  | .finish => .isTrue trivial

/-- `jmin` and `jmax` after a request: kept, or the new ones, which are ordered. -/
theorem configure_junk {mem : Kmalloc} {req : Request} {s : DevState}
    (h : (configure mem req s).err = none) :
    ((configure mem req s).state.dev = s.dev) ∨
    ((configure mem req s).state.dev.jmin = newJmin req s.dev ∧
      (configure mem req s).state.dev.jmax = newJmax req s.dev ∧
      (newJmax req s.dev = 0 ∨ newJmin req s.dev ≤ newJmax req s.dev)) := by
  rcases configure_accepted h with ⟨-, -, hdev⟩ | ⟨idx, hvalid, hrun, hdev⟩
  · exact .inl hdev
  · have htakes := takes_attrs hrun
    have hjmin : (adjustJmax (writeAll mem req.attrs s).dev).jmin = newJmin req s.dev := by
      rw [newJmin, ← htakes .jmin, adjustJmax]
      split <;> rfl
    have hjmax : (adjustJmax (writeAll mem req.attrs s).dev).jmax = newJmax req s.dev := by
      rw [newJmax, newJmin, ← htakes .jmin, ← htakes .jmax, ← htakes .jc, adjustJmax]
      split <;> rfl
    refine .inr ⟨?_, ?_, ?_⟩
    · rw [hdev]
      exact hjmin
    · rw [hdev]
      exact hjmax
    · rw [← hjmin, ← hjmax]
      exact hvalid.jmin_le

/-! ## Safety -/

/-- A draw between ordered bounds lies between them. -/
theorem junkPacketSize_le {wg : WgDevice} (h : wg.jmin ≤ wg.jmax) (rand : U32) :
    (junkPacketSize rand wg).toNat ≤ wg.jmax.toNat := by
  have hle : wg.jmin.toNat ≤ wg.jmax.toNat := h
  have hmax := wg.jmax.isLt
  -- the range has at most 2^16 values, so nothing wraps
  have hrange : ((wg.jmax.setWidth 32 : U32) - wg.jmin.setWidth 32 + 1).toNat =
      wg.jmax.toNat - wg.jmin.toNat + 1 := by
    simp only [BitVec.toNat_add, BitVec.toNat_sub, BitVec.toNat_setWidth]
    have h1 : (1 : U32).toNat = 1 := rfl
    omega
  have hmod : (rand % ((wg.jmax.setWidth 32 : U32) - wg.jmin.setWidth 32 + 1)).toNat ≤
      wg.jmax.toNat - wg.jmin.toNat := by
    rw [BitVec.toNat_umod, hrange]
    exact Nat.lt_succ_iff.mp (Nat.mod_lt _ (Nat.succ_pos _))
  unfold junkPacketSize getRandomU32Inclusive
  rw [BitVec.toNat_setWidth, BitVec.toNat_add, BitVec.toNat_setWidth]
  omega

/-- The configuration is ordered, a running loop has room, and so far it always had. -/
structure Inv (s : St) : Prop where
  ordered : s.host.dev.jmax = 0 ∨ s.host.dev.jmin ≤ s.host.dev.jmax
  room : ∀ b n, s.loop = some ⟨some b, n + 1⟩ →
    s.host.dev.jmin ≤ s.host.dev.jmax ∧ s.host.dev.jmax.toNat ≤ b
  within : WithinBuffer s

theorem init_inv : Inv init := by
  constructor
  · exact .inl rfl
  · intro b n h
    cases h
  · intro p hp
    cases hp

theorem step_inv : ∀ s l s', Inv s → Admissible s l → machine.step s l = some s' → Inv s' := by
  intro s l s' hinv hadm hstep
  change step s l = some s' at hstep
  cases l with
  | setDevice mem req =>
    dsimp only [step] at hstep
    split at hstep
    · next hok =>
      cases hstep
      rcases configure_junk hok with hdev | ⟨hjmin, hjmax, hordered⟩
      · -- nothing changed
        constructor
        · rw [hdev]
          exact hinv.ordered
        · rw [hdev]
          exact hinv.room
        · exact hinv.within
      · -- the new bounds are ordered, and leave room
        constructor
        · rw [hjmin, hjmax]
          exact hordered
        · intro b n hloop
          rw [hjmin, hjmax]
          change LeavesRoom s.loop req s.host.dev at hadm
          change s.loop = some ⟨some b, n + 1⟩ at hloop
          rw [hloop] at hadm
          exact hadm
        · exact hinv.within
    · cases hstep
  | start granted =>
    dsimp only [step] at hstep
    split at hstep
    · next hguard =>
      cases hstep
      refine ⟨hinv.ordered, ?_, hinv.within⟩
      intro b n hloop
      -- the loop starts with `jmax` bytes
      cases granted with
      | false => cases hloop
      | true =>
        have hbuffer : s.host.dev.jmax.toNat = b :=
          Option.some.inj (congrArg Loop.buffer (Option.some.inj hloop))
        exact ⟨hinv.ordered.resolve_left hguard.2.2, le_of_eq hbuffer⟩
    · cases hstep
  | iterate rand =>
    dsimp only [step] at hstep
    split at hstep
    · next buffer n hloop =>
      cases hstep
      refine ⟨hinv.ordered, ?_, ?_⟩
      · intro b m hloop'
        cases hloop'
        exact hinv.room b (m + 1) hloop
      · intro p hp b hb
        rcases List.mem_append.mp hp with hp | hp
        · exact hinv.within p hp b hb
        · rw [List.mem_singleton.mp hp] at hb ⊢
          subst hb
          rcases hinv.room b n hloop with ⟨hle, hmax⟩
          exact le_trans (junkPacketSize_le hle rand) hmax
    · cases hstep
  | finish =>
    dsimp only [step] at hstep
    split at hstep
    · cases hstep
      refine ⟨hinv.ordered, ?_, hinv.within⟩
      intro b n hloop
      cases hloop
    · cases hstep

/-- Along every run whose requests leave a running loop room, every size handed over
is within the buffer. -/
theorem handed_within_buffer (ls : List Label) (s : St)
    (hok : machine.AllSteps Admissible init ls) (hrun : machine.run init ls = some s) :
    WithinBuffer s :=
  (machine.runs_invariant step_inv init_inv hok hrun).within

instance (s : St) (ls : List Label) : Decidable (machine.AllSteps Admissible s ls) :=
  machine.decidableAllSteps (fun _ _ => inferInstance) s ls

/-- `Jc = 2`, `Jmin = 10`, `Jmax = 20`. -/
def firstRequest : Request where
  jc := some 2
  jmin := some 10
  jmax := some 20

/-- A loop of two packets, with a request for `jmax` between them. -/
def twoPackets (jmax : U16) (rand : U32) : List Label :=
  [.setDevice .generous firstRequest, .start true, .iterate 3,
    .setDevice .generous { jmax := some jmax }, .iterate rand]

theorem handed_within_buffer_twoPackets :
    (machine.run init (twoPackets 15 4)).isSome = true ∧
      ∀ s, machine.run init (twoPackets 15 4) = some s → WithinBuffer s :=
  ⟨by decide +kernel, fun s hrun =>
    handed_within_buffer (twoPackets 15 4) s (by decide +kernel) hrun⟩

/-- A request that raises `jmax` to 1000 lets the loop hand over 999 of 20 bytes. -/
theorem handed_beyond_buffer :
    ∃ s, machine.run init (twoPackets 1000 989) = some s ∧
      s.handed = [⟨13, some 20⟩, ⟨999, some 20⟩] ∧ ¬ WithinBuffer s := by
  have hsome : ((machine.run init (twoPackets 1000 989)).map St.handed) =
      some [⟨13, some 20⟩, ⟨999, some 20⟩] := by
    decide +kernel
  rcases Option.map_eq_some_iff.mp hsome with ⟨s, hrun, hhanded⟩
  refine ⟨s, hrun, hhanded, ?_⟩
  intro hwithin
  have hle := hwithin ⟨999, some 20⟩ (by rw [hhanded]; decide) 20 rfl
  exact absurd hle (by decide)

end AmneziaWg.JunkLoop

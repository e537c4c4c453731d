import AmneziaWg.Noise.Agreement
import AmneziaWg.Lib.Machine

/-!
# Responses and new initiations at the same time

`wg_noise_handshake_consume_response` copies the handshake under the read lock, lets go of
it to decrypt the response, and commits under the write lock if the state is still "created
initiation". Another initiation may be created in between: the state is then the same
again, but the index is not.

* **Model**: the machine of the locked sections on one handshake of the initiator, with
  honest responders that answer any initiation sent.
* **Safety**: `sessions_agree`, over all runs in which a commit belongs to the initiation
  that was copied.
-/

namespace AmneziaWg.Noise.Race

open Linux

/-! ## Model layer -/

/-- A response on the wire, with the indices that its responder has recorded. -/
structure Answer where
  response : MessageHandshakeResponse
  remoteIndex : U32
  ownIndex : U32
deriving DecidableEq, Repr

/-- A worker between the two sections; `generation` counts the initiations at the copy. -/
structure Worker where
  answer : Answer
  pending : PendingResponse
  generation : ℕ

/-- A session of the initiator, and the response that it was derived from. -/
structure Session where
  index : U32
  remoteIndex : U32
  answer : Option Answer
deriving DecidableEq, Repr

structure State where
  host : Host
  sent : List MessageHandshakeInitiation
  answers : List Answer
  workers : List Worker
  /-- The number of initiations created. -/
  generation : ℕ
  /-- The response that was committed last. -/
  committed : Option Answer
  sessions : List Session

inductive Label where
  | createInitiation (env : CreateEnv)
  /-- An honest responder answers an initiation that was sent. -/
  | respond (responder : Host) (n : ℕ) (checked committed : U64) (env : CreateEnv)
  /-- A worker takes a response: lookup, read-locked copy, decryption. -/
  | copy (n : ℕ)
  /-- A worker commits under the write lock. -/
  | commit (n : ℕ)
  | beginSession (now : U64) (allocated : Bool)

variable (P : Primitives) (p : ℕ)

/-- What a responder does with an initiation. -/
def answerTo (initiation : MessageHandshakeInitiation) (responder : Host)
    (checked committed : U64) (env : CreateEnv) : Option Answer :=
  match wgNoiseHandshakeConsumeInitiation P initiation checked committed responder with
  | (_, none) => none
  | (host, some q) =>
    match wgNoiseHandshakeCreateResponse P env q host with
    | some (host, some response) =>
      some ⟨response, (host.handshake q).remoteIndex, (host.handshake q).index⟩
    | _ => none

def createStep (env : CreateEnv) (s : State) : Option State :=
  (wgNoiseHandshakeCreateInitiation P env p s.host).map fun
    | (host, none) => { s with host := host }
    | (host, some initiation) =>
      { s with host := host, sent := s.sent ++ [initiation], generation := s.generation + 1 }

def copyStep (n : ℕ) (s : State) : Option State :=
  s.answers[n]?.bind fun answer =>
    (copyAndReadResponse P answer.response s.host).bind fun pending =>
      if pending.peer = p then
        some { s with workers := s.workers ++ [⟨answer, pending, s.generation⟩] }
      else none

def commitStep (n : ℕ) (s : State) : Option State :=
  s.workers[n]?.map fun w =>
    let s := { s with workers := s.workers.eraseIdx n }
    match commitResponse w.answer.response w.pending s.host with
    | (_, none) => s
    | (host, some _) => { s with host := host, committed := some w.answer }

def beginStep (now : U64) (allocated : Bool) (s : State) : State :=
  match wgNoiseHandshakeBeginSession P now allocated p s.host with
  | (host, false) => { s with host := host }
  | (host, true) =>
    let keypair := host.keypairs (s.host.keypairCounter + 1)
    { s with
      host := host
      sessions := s.sessions ++ [⟨keypair.index, keypair.remoteIndex, s.committed⟩] }

/-- The machine on the handshake of peer `p`. -/
def machine : Machine State Label where
  step s
    | .createInitiation env => createStep P p env s
    | .respond responder n checked committed env =>
      s.sent[n]?.bind fun initiation =>
        (answerTo P initiation responder checked committed env).map fun answer =>
          { s with answers := s.answers ++ [answer] }
    | .copy n => copyStep P p n s
    | .commit n => commitStep n s
    | .beginSession now allocated => some (beginStep P p now allocated s)

/-- The handshake has not been used yet. -/
structure Start (s : State) : Prop where
  zeroed : (s.host.handshake p).state = .zeroed
  unlinked : ∀ i, (i, .handshake p) ∉ s.host.indexHashtable
  answers : s.answers = []
  workers : s.workers = []
  sessions : s.sessions = []

/-! ## Safety -/

/-- The session is the one that the responder has: each side's index is the other's remote
index. -/
def Session.Agrees (x : Session) : Prop :=
  ∃ a, x.answer = some a ∧ x.index = a.remoteIndex ∧ x.remoteIndex = a.ownIndex

/-- The condition on a step: a commit that goes through belongs to the latest initiation. -/
def Current (s : State) : Label → Prop
  | .commit n => ∀ w ∈ s.workers[n]?, (s.host.handshake w.pending.peer).state = w.pending.state →
      w.generation = s.generation
  | _ => True

/-- A response names the indices of its responder. -/
def Answer.Honest (a : Answer) : Prop :=
  a.response.receiverIndex = a.remoteIndex ∧ a.response.senderIndex = a.ownIndex

structure Inv (s : State) : Prop where
  linked : ∀ i, (i, .handshake p) ∈ s.host.indexHashtable → i = (s.host.handshake p).index
  initiator : (s.host.handshake p).state ≠ .createdResponse
  honest : ∀ a ∈ s.answers, a.Honest
  peer : ∀ w ∈ s.workers, w.pending.peer = p
  worker : ∀ w ∈ s.workers, w.answer.Honest
  past : ∀ w ∈ s.workers, w.generation ≤ s.generation
  /-- A copy of the latest initiation was looked up under the index that is still in use. -/
  copied : ∀ w ∈ s.workers, w.generation = s.generation →
    (s.host.handshake p).index = w.answer.remoteIndex
  consumed : (s.host.handshake p).state = .consumedResponse →
    ∃ a, s.committed = some a ∧ (s.host.handshake p).index = a.remoteIndex ∧
      (s.host.handshake p).remoteIndex = a.ownIndex
  sessions : ∀ x ∈ s.sessions, x.Agrees

variable {P p} {s s' : State}

theorem start_inv (h : Start p s) : Inv p s := by
  constructor
  · intro i hi
    exact absurd hi (h.unlinked i)
  · rw [h.zeroed]
    decide
  · rw [h.answers]
    exact fun a ha => nomatch ha
  · rw [h.workers]
    exact fun w hw => nomatch hw
  · rw [h.workers]
    exact fun w hw => nomatch hw
  · rw [h.workers]
    exact fun w hw => nomatch hw
  · rw [h.workers]
    exact fun w hw => nomatch hw
  · intro hstate
    rw [h.zeroed] at hstate
    cases hstate
  · rw [h.sessions]
    exact fun x hx => nomatch hx

theorem create_inv (hinv : Inv p s) {env : CreateEnv} (h : createStep P p env s = some s') :
    Inv p s' := by
  rcases Option.map_eq_some_iff.mp h with ⟨⟨host, r⟩, hcreate, rfl⟩
  rcases createInitiation_cases hcreate with
    ⟨rfl, htable, hindex, hstate, hremote⟩ | ⟨m, rfl, hstate, htable⟩
  · -- the creation failed: index, state and entry are as before
    refine { hinv with linked := ?_, initiator := ?_, copied := ?_, consumed := ?_ }
    · intro i hi
      dsimp only at hi ⊢
      rw [htable] at hi
      rw [hindex]
      exact hinv.linked i hi
    · dsimp only
      rw [hstate]
      exact hinv.initiator
    · intro w hw hgen
      dsimp only
      rw [hindex]
      exact hinv.copied w hw hgen
    · dsimp only
      rw [hstate, hindex, hremote]
      exact hinv.consumed
  · -- a new index; no worker has a copy of the new initiation
    refine { hinv with linked := ?_, initiator := ?_, past := ?_, copied := ?_, consumed := ?_ }
    · intro i hi
      dsimp only at hi
      rw [htable] at hi
      exact mem_insert_self.mp hi
    · dsimp only
      rw [hstate]
      decide
    · intro w hw
      exact Nat.le_succ_of_le (hinv.past w hw)
    · intro w hw hgen
      exact absurd (hinv.past w hw) (by rw [hgen]; exact Nat.not_succ_le_self _)
    · intro hconsumed
      dsimp only at hconsumed
      rw [hstate] at hconsumed
      cases hconsumed

theorem answerTo_honest {initiation : MessageHandshakeInitiation} {responder : Host}
    {checked committed : U64} {env : CreateEnv} {a : Answer}
    (h : answerTo P initiation responder checked committed env = some a) : a.Honest := by
  unfold answerTo at h
  split at h
  · cases h
  split at h
  · next hrespond =>
    cases h
    exact createResponse_some hrespond
  · cases h

theorem copy_inv (hinv : Inv p s) {n : ℕ} (h : copyStep P p n s = some s') : Inv p s' := by
  rcases Option.bind_eq_some_iff.mp h with ⟨answer, hanswer, h⟩
  rcases Option.bind_eq_some_iff.mp h with ⟨pending, hcopy, h⟩
  split at h
  swap
  · cases h
  next hpeer =>
  cases h
  rcases copyAndReadResponse_some hcopy with ⟨hlinked, -⟩
  rw [hpeer] at hlinked
  have hhonest := hinv.honest answer (List.mem_of_getElem? hanswer)
  -- every fact about the workers is known for the old ones
  have hworkers : ∀ {Q : Worker → Prop}, (∀ w ∈ s.workers, Q w) →
      Q ⟨answer, pending, s.generation⟩ →
      ∀ w ∈ s.workers ++ [⟨answer, pending, s.generation⟩], Q w := by
    intro Q hold hnew w hw
    rcases List.mem_append.mp hw with hw | hw
    · exact hold w hw
    · rw [List.mem_singleton] at hw
      subst hw
      exact hnew
  refine { hinv with peer := ?_, worker := ?_, past := ?_, copied := ?_ }
  · exact hworkers hinv.peer hpeer
  · exact hworkers hinv.worker hhonest
  · exact hworkers hinv.past (Nat.le_refl _)
  · refine hworkers hinv.copied ?_
    intro _
    rw [← hinv.linked _ hlinked]
    exact hhonest.1

theorem commit_inv (hinv : Inv p s) {n : ℕ} (hcurrent : Current s (.commit n))
    (h : commitStep n s = some s') : Inv p s' := by
  rcases Option.map_eq_some_iff.mp h with ⟨w, hw, rfl⟩
  have hmem : w ∈ s.workers := List.mem_of_getElem? hw
  have hsub : ∀ v ∈ s.workers.eraseIdx n, v ∈ s.workers := fun v hv => List.mem_of_mem_eraseIdx hv
  have hpeer := hinv.peer w hmem
  have herased : Inv p { s with workers := s.workers.eraseIdx n } :=
    { hinv with
      peer := fun v hv => hinv.peer v (hsub v hv)
      worker := fun v hv => hinv.worker v (hsub v hv)
      past := fun v hv => hinv.past v (hsub v hv)
      copied := fun v hv => hinv.copied v (hsub v hv) }
  rcases commitResponse_cases w.answer.response w.pending s.host with
    ⟨-, hcommit⟩ | ⟨hstate, host, hcommit, htable, hindex, hconsumed, hremote⟩
  · dsimp only
    rw [hcommit]
    exact herased
  · have hgen := hcurrent w hw hstate
    rw [hpeer] at hindex hconsumed hremote
    dsimp only
    rw [hcommit]
    refine { herased with linked := ?_, initiator := ?_, copied := ?_, consumed := ?_ }
    · intro i hi
      dsimp only at hi ⊢
      rw [htable] at hi
      rw [hindex]
      exact hinv.linked i hi
    · dsimp only
      rw [hconsumed]
      decide
    · intro v hv hgen
      dsimp only
      rw [hindex]
      exact herased.copied v hv hgen
    · intro _
      refine ⟨w.answer, rfl, ?_, ?_⟩
      · dsimp only
        rw [hindex]
        exact hinv.copied w hmem hgen
      · dsimp only
        rw [hremote]
        exact (hinv.worker w hmem).2

/-- Giving up the handshake keeps the invariant; only its entry may go. -/
theorem zero_inv (hinv : Inv p s) {host : Host}
    (hzero : host.handshake p = handshakeZero (s.host.handshake p))
    (hlinked : ∀ i, (i, .handshake p) ∈ host.indexHashtable →
      (i, .handshake p) ∈ s.host.indexHashtable) :
    Inv p { s with host := host } := by
  refine { hinv with linked := ?_, initiator := ?_, copied := ?_, consumed := ?_ }
  · intro i hi
    dsimp only at hi ⊢
    rw [hzero]
    exact hinv.linked i (hlinked i hi)
  · intro hresponse
    dsimp only at hresponse
    rw [hzero] at hresponse
    cases hresponse
  · intro w hw hgen
    dsimp only
    rw [hzero]
    exact hinv.copied w hw hgen
  · intro hconsumed
    dsimp only at hconsumed
    rw [hzero] at hconsumed
    cases hconsumed

theorem begin_inv (hinv : Inv p s) (now : U64) (allocated : Bool) :
    Inv p (beginStep P p now allocated s) := by
  unfold beginStep
  rcases beginSession_cases P now p s.host allocated with
    ⟨hbegin, -⟩ | ⟨host, hbegin, hzero, hlinked, -⟩ | ⟨host, index, hbegin, hzero, hfin, hentered⟩
  · rw [hbegin]
    exact hinv
  · rw [hbegin]
    exact zero_inv hinv hzero fun i => (hlinked i).mp
  · rw [hbegin]
    have hstate : (s.host.handshake p).state = .consumedResponse :=
      hfin.resolve_left hinv.initiator
    rcases hinv.consumed hstate with ⟨a, ha, hindex, hremote⟩
    have hhost : Inv p { s with host := host } :=
      zero_inv hinv hzero fun i hi => absurd hi (hentered.unlinked i)
    refine { hhost with sessions := ?_ }
    intro x hx
    rcases List.mem_append.mp hx with hx | hx
    · exact hinv.sessions x hx
    · rw [List.mem_singleton] at hx
      subst hx
      -- the keypair has the index of the handshake, which is the one that was copied
      refine ⟨a, ha, ?_, ?_⟩
      · show (host.keypairs _).index = _
        rw [hentered.index_eq, hinv.linked index hentered.linked, hindex]
      · show (host.keypairs _).remoteIndex = _
        rw [hentered.keys.remoteIndex]
        exact hremote

theorem step_inv : ∀ s l s', Inv p s → Current s l → (machine P p).step s l = some s' → Inv p s' := by
  intro s l s' hinv hcurrent hstep
  cases l with
  | createInitiation env => exact create_inv hinv hstep
  | respond responder n checked committed env =>
    rcases Option.bind_eq_some_iff.mp hstep with ⟨initiation, -, hstep⟩
    rcases Option.map_eq_some_iff.mp hstep with ⟨a, ha, rfl⟩
    refine { hinv with honest := ?_ }
    intro b hb
    rcases List.mem_append.mp hb with hb | hb
    · exact hinv.honest b hb
    · rw [List.mem_singleton] at hb
      subst hb
      exact answerTo_honest ha
  | copy n => exact copy_inv hinv hstep
  | commit n => exact commit_inv hinv hcurrent hstep
  | beginSession now allocated =>
    cases hstep
    exact begin_inv hinv now allocated

/-- In every run in which no commit belongs to an earlier initiation, every session of the
initiator has the indices that its responder recorded. -/
theorem sessions_agree (P : Primitives) (p : ℕ) (s s' : State) (ls : List Label) (hstart : Start p s)
    (hcurrent : (machine P p).AllSteps Current s ls) (hrun : (machine P p).run s ls = some s') :
    ∀ x ∈ s'.sessions, x.Agrees :=
  ((machine P p).runs_invariant step_inv (start_inv hstart) hcurrent hrun).sessions

/-! ## Runs -/

instance decidableCurrent (s : State) : (l : Label) → Decidable (Current s l)
  | .commit n => inferInstanceAs (Decidable (∀ w ∈ s.workers[n]?, _ → _))
  | .createInitiation _ => .isTrue trivial
  | .respond .. => .isTrue trivial
  | .copy _ => .isTrue trivial
  | .beginSession .. => .isTrue trivial

instance (P : Primitives) (p : ℕ) (s : State) (ls : List Label) :
    Decidable ((machine P p).AllSteps Current s ls) :=
  (machine P p).decidableAllSteps decidableCurrent s ls

def sampleStart : State := ⟨sampleA, [], [], [], 0, none, []⟩

theorem sampleStart_start : Start 0 sampleStart :=
  ⟨rfl, (fun _ hi => nomatch hi), rfl, rfl, rfl⟩

/-- An initiation with index 5 and its answer, which a worker has copied. -/
def answered : List Label :=
  [.createInitiation (sampleEnv 3), .respond sampleB 0 20000000 20000000 (sampleEnv 4), .copy 0]

/-- Another initiation, with index 6. -/
def again : Label := .createInitiation { sampleEnv 7 with draws := [6] }

def finish : List Label := [.commit 0, .beginSession 0 true]

/-- A new initiation between copy and commit: the keypair is entered under index 6, the
responder addresses index 5. -/
theorem stale_commit :
    ∃ s x, (machine samplePrimitives 0).run sampleStart (answered ++ again :: finish) = some s ∧
      s.sessions = [x] ∧ x.index = 6 ∧ x.answer.map Answer.remoteIndex = some 5 ∧ ¬ x.Agrees := by
  have hrun : ((machine samplePrimitives 0).run sampleStart (answered ++ again :: finish)).map
      (fun s => s.sessions.map fun x => (x.index, x.answer.map Answer.remoteIndex)) =
      some [(6, some 5)] := by
    decide +kernel
  rcases Option.map_eq_some_iff.mp hrun with ⟨s, hs, hsessions⟩
  rcases List.map_eq_singleton_iff.mp hsessions with ⟨x, hx, hpair⟩
  rcases Prod.mk.inj hpair with ⟨hindex, hremote⟩
  refine ⟨s, x, hs, hx, hindex, hremote, ?_⟩
  rintro ⟨a, ha, heq, -⟩
  rw [ha, Option.map_some, Option.some.injEq] at hremote
  rw [hindex, hremote] at heq
  exact absurd heq (by decide)

theorem sessions_agree_sample :
    ∃ s, (machine samplePrimitives 0).run sampleStart (answered ++ finish) = some s ∧
      s.sessions.map Session.index = [5] ∧ ∀ x ∈ s.sessions, x.Agrees := by
  have hrun : ((machine samplePrimitives 0).run sampleStart (answered ++ finish)).map
      (fun s => s.sessions.map Session.index) = some [5] := by
    decide +kernel
  rcases Option.map_eq_some_iff.mp hrun with ⟨s, hs, hindex⟩
  exact ⟨s, hs, hindex, sessions_agree samplePrimitives 0 sampleStart s _ sampleStart_start
    (by decide +kernel) hs⟩

end AmneziaWg.Noise.Race

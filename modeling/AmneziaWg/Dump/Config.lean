import AmneziaWg.MagicHeader
import AmneziaWg.Netlink

/-!
# The dumped configuration

The obfuscation attributes that `wg_get_device_dump` emits, and what a new device
makes of them. Getter and setter are two separate lists of attributes: the getter
omits an I-packet without descriptor and the protocol `none`, and writes ranges
and protocols as texts; the setter adjusts `jmax` and compiles the I-packets.

* **Getter**: `dumpAttr`, `dumpAttrs`; `parseAttrs` is the request they make.
* **Fixed points**: `adjustJmax_of_eq`, `jpSpecSetup_generous`.
* **Result**: `dump_round_trip`. The exception is a range that is stored inverted,
  which a rejected request can leave behind and a later one does not notice.
-/

namespace AmneziaWg

open Linux Junk Stepwise

/-! ## Model layer -/

def imitateProtoName : ImitateProto → Bytes
  | .quic => ascii "quic"
  | .dns => ascii "dns"
  | .stun => ascii "stun"
  | .sip => ascii "sip"
  | .none => ascii "none"

/-- What the dump emits for a component of the configuration, if anything. -/
def dumpAttr (wg : WgDevice) : Component → Option Attr
  | .jc => some (.jc wg.jc)
  | .jmin => some (.jmin wg.jmin)
  | .jmax => some (.jmax wg.jmax)
  | .junkSize k => some (.junkSize k (wg.junkSize k))
  | .header k =>
    let buf := mhGenspec (wg.headers k) specBufLen
    if buf.length ≠ 0 then some (.header k buf) else none
  | .ispec n => (wg.ispecs n).desc.map (.ispec n)
  | .imitateProtocol =>
    if wg.imitateProto ≠ .none then some (.imitateProtocol (imitateProtoName wg.imitateProto))
    else none

/-- The obfuscation attributes of the dump; the getter has the order of the setter. -/
def dumpAttrs (wg : WgDevice) : List Attr := components.filterMap (dumpAttr wg)

/-- `nla_parse`: an attribute is stored at its type. -/
def Request.store (req : Request) : Attr → Request
  | .jc v => { req with jc := some v }
  | .jmin v => { req with jmin := some v }
  | .jmax v => { req with jmax := some v }
  | .junkSize k v => { req with s := Function.update req.s k (some v) }
  | .header k desc => { req with h := Function.update req.h k (some desc) }
  | .ispec n desc => { req with i := Function.update req.i n (some desc) }
  | .imitateProtocol name => { req with imitateProtocol := some name }

/-- The request that consists of these attributes. -/
def parseAttrs (attrs : List Attr) : Request := attrs.foldl Request.store {}

/-! ## The request of a dump -/

variable {wg : WgDevice} {a : Attr}

theorem dumpAttr_component {c : Component} (h : dumpAttr wg c = some a) : a.component = c := by
  cases c with
  | header k =>
    rw [dumpAttr] at h
    split at h
    · cases h
      rfl
    · cases h
  | ispec n =>
    rcases Option.map_eq_some_iff.mp h with ⟨desc, -, rfl⟩
    rfl
  | imitateProtocol =>
    rw [dumpAttr] at h
    split at h
    · cases h
      rfl
    · cases h
  | _ =>
    cases h
    rfl

theorem store_attr_self (req : Request) (a : Attr) : (req.store a).attr a.component = some a := by
  cases a with
  | junkSize k v => exact congrArg (Option.map _) (Function.update_self k _ req.s)
  | header k desc => exact congrArg (Option.map _) (Function.update_self k _ req.h)
  | ispec n desc => exact congrArg (Option.map _) (Function.update_self n _ req.i)
  | _ => rfl

theorem store_attr_other (req : Request) {c : Component} (h : c ≠ a.component) :
    (req.store a).attr c = req.attr c := by
  cases a <;> cases c <;>
    first
    | rfl
    | exact absurd rfl h
    | exact congrArg (Option.map _) (Function.update_of_ne (fun heq => h (congrArg _ heq)) ..)

/-- Attributes of different components are stored one beside the other. -/
theorem foldl_store_attr {f : Component → Option Attr}
    (hf : ∀ c a, f c = some a → a.component = c) {cs : List Component} (hnodup : cs.Nodup)
    (req : Request) (c : Component) :
    ((cs.filterMap f).foldl Request.store req).attr c =
      if c ∈ cs then (f c).or (req.attr c) else req.attr c := by
  induction cs generalizing req with
  | nil => rfl
  | cons c' cs ih =>
    rcases List.nodup_cons.mp hnodup with ⟨hc', hnodup⟩
    cases hfc : f c' with
    | none =>
      rw [List.filterMap_cons_none hfc, ih hnodup]
      by_cases hc : c = c'
      · -- nothing is stored for the first component
        subst hc
        rw [if_neg hc', if_pos (List.mem_cons_self ..), hfc]
        rfl
      · simp only [List.mem_cons, hc, false_or]
    | some a =>
      rw [List.filterMap_cons_some hfc, List.foldl_cons, ih hnodup]
      have ha := hf c' a hfc
      by_cases hc : c = c'
      · subst hc
        rw [if_neg hc', if_pos (List.mem_cons_self ..), hfc]
        have hself := store_attr_self req a
        rw [ha] at hself
        exact hself
      · have hother : c ≠ a.component := by
          rw [ha]
          exact hc
        simp only [List.mem_cons, hc, false_or, store_attr_other req hother]

theorem foldl_store_stages (attrs : List Attr) (req : Request) :
    (attrs.foldl Request.store req).early = req.early ∧
      (attrs.foldl Request.store req).peers = req.peers := by
  induction attrs generalizing req with
  | nil => exact ⟨rfl, rfl⟩
  | cons a attrs ih =>
    have hstore : (req.store a).early = req.early ∧ (req.store a).peers = req.peers := by
      cases a <;> exact ⟨rfl, rfl⟩
    rw [List.foldl_cons, (ih _).1, (ih _).2]
    exact hstore

section Dump

variable (wg : WgDevice)

theorem parseAttrs_attr (c : Component) : (parseAttrs (dumpAttrs wg)).attr c = dumpAttr wg c := by
  have hnone : ({} : Request).attr c = none := by
    cases c <;> rfl
  rw [parseAttrs, dumpAttrs, foldl_store_attr (fun c a h => dumpAttr_component h) (by decide),
    if_pos (mem_components c), hnone, Option.or_none]

theorem parseAttrs_attrs : (parseAttrs (dumpAttrs wg)).attrs = dumpAttrs wg := by
  have hattr : (parseAttrs (dumpAttrs wg)).attr = dumpAttr wg := funext (parseAttrs_attr wg)
  rw [Request.attrs, hattr]
  rfl

theorem parseAttrs_stages :
    (parseAttrs (dumpAttrs wg)).early = none ∧ (parseAttrs (dumpAttrs wg)).peers = none :=
  foldl_store_stages (dumpAttrs wg) {}

/-- A range is always emitted. -/
theorem dumpAttr_header (k : MsgIdx) :
    dumpAttr wg (.header k) = some (.header k (specText (wg.headers k))) := by
  have hne : (mhGenspec (wg.headers k) specBufLen).length ≠ 0 := by
    rw [mhGenspec_eq]
    exact specText_length_ne_zero _
  rw [dumpAttr, if_pos hne, mhGenspec_eq]

end Dump

/-! ## Fixed points -/

/-- An adjusted `jmax` is not adjusted again. -/
theorem adjustJmax_of_eq {w : WgDevice} (hjc : wg.jc = (adjustJmax w).jc)
    (hjmin : wg.jmin = (adjustJmax w).jmin) (hjmax : wg.jmax = (adjustJmax w).jmax) :
    adjustJmax wg = wg := by
  refine if_neg ?_
  rintro ⟨hjc', hlimits⟩
  rw [hjc, adjustJmax_jc] at hjc'
  rw [hjmin, adjustJmax_jmin, hjmax] at hlimits
  unfold adjustJmax at hlimits
  split at hlimits
  · next hadj =>
    -- a number is not its successor
    rw [hadj.2] at hlimits
    have hnat := congrArg BitVec.toNat hlimits
    have hlt := w.jmax.isLt
    rw [BitVec.toNat_add] at hnat
    change w.jmax.toNat = (w.jmax.toNat + 1) % 2 ^ 16 at hnat
    omega
  · next hadj => exact hadj ⟨hjc', hlimits⟩

theorem compiled_ispecs (mem : Kmalloc) (idx : Fin 5 → ℕ) (w : WgDevice) (n : Fin 5) :
    (compiled mem idx (fun _ => True) w).ispecs n = (jpSpecSetup mem (idx n) (w.ispecs n)).spec := by
  simp only [compiled, setupOf, if_true]

/-- A device as an accepted request leaves it. -/
structure Accepted (wg : WgDevice) : Prop where
  adv : wg.advancedSecurity = true
  adjusted : adjustJmax wg = wg
  valid : Valid wg
  ispec : ∀ n, ∃ (mem : Kmalloc) (i : ℕ) (spec : JpSpec),
    (jpSpecSetup mem i spec).err = none ∧ wg.ispecs n = (jpSpecSetup mem i spec).spec

theorem Valid.of_eq {w : WgDevice} (h : Valid w) (hjmin : wg.jmin = w.jmin)
    (hjmax : wg.jmax = w.jmax) (hjunk : wg.junkSize = w.junkSize)
    (hheaders : wg.headers = w.headers) : Valid wg := by
  constructor
  · rw [hjmax]
    exact h.jmax_lt
  · rw [hjmax, hjmin]
    exact h.jmin_le
  · intro k hk
    have hfit := h.junk k hk
    unfold JunkFits at hfit ⊢
    rw [hjunk]
    exact hfit
  · rw [hheaders]
    exact h.headers

variable {mem : Kmalloc} {s : DevState}

theorem postConfig_acceptedDevice (hadv : s.dev.advancedSecurity = true)
    (h : (wgDeviceHandlePostConfig mem s).err = none) :
    Accepted (wgDeviceHandlePostConfig mem s).state.dev := by
  rcases postConfig_accepted hadv h with ⟨hvalid, idx, hdev, herr⟩
  rw [hdev]
  constructor
  · show (adjustJmax s.dev).advancedSecurity = true
    unfold adjustJmax
    split <;> exact hadv
  · exact adjustJmax_of_eq rfl rfl rfl
  · exact hvalid.of_eq rfl rfl rfl rfl
  · intro n
    exact ⟨mem, idx n, (adjustJmax s.dev).ispecs n, herr n, compiled_ispecs mem idx _ n⟩

/-- A request that returns without error and leaves obfuscation on. -/
theorem wgSetDevice_acceptedDevice {req : Request} (h : (wgSetDevice mem req s).err = none)
    (hadv : (wgSetDevice mem req s).state.dev.advancedSecurity = true) :
    Accepted (wgSetDevice mem req s).state.dev := by
  unfold wgSetDevice at h hadv ⊢
  rcases Outcome.andThen_success h with ⟨hconf, heq⟩
  rw [heq] at hadv ⊢
  change (configure mem req s).state.dev.advancedSecurity = true at hadv
  show Accepted (configure mem req s).state.dev
  unfold configure at hconf hadv ⊢
  rcases Outcome.andThen_success hconf with ⟨hattrs, heq'⟩
  rw [heq'] at hconf hadv ⊢
  refine postConfig_acceptedDevice ?_ hconf
  -- the validation does not set the flag
  rcases postConfig_cases mem _ with ⟨hoff, hres⟩ | ⟨hon, -⟩ | ⟨hon, -⟩
  · rw [hres] at hadv
    exact hadv
  · exact hon
  · exact hon

/-! ## What a new device makes of a dump -/

section Apply

theorem nlaStrdup_generous {s : Bytes} (h : s.length + 1 < 2 ^ 31) (i : ℕ) :
    nlaStrdup .generous i s = some s :=
  if_pos (decide_eq_true h)

theorem imitateProtoParse_name (p : ImitateProto) :
    imitateProtoParse (some (imitateProtoName p)) = p := by
  cases p <;> decide

/-- The device with its I-packets not compiled. -/
def uncompiled (wg : WgDevice) : WgDevice :=
  { wg with ispecs := fun n => ⟨(wg.ispecs n).desc, none, [], 0⟩ }

theorem specText_lt (r : MagicHeader) : (specText r).length + 1 < 2 ^ 31 := by
  have := length_specText_le r
  omega

theorem imitateProtoName_lt (p : ImitateProto) : (imitateProtoName p).length + 1 < 2 ^ 31 := by
  cases p <;> decide

variable {wg : WgDevice}

theorem run_setAttr_ok {attrs : List Attr} (h : ∀ a ∈ attrs, ∀ s, a.error mem s = none)
    (s : DevState) : (run (setAttr mem) attrs s).err = none := by
  induction attrs generalizing s with
  | nil => rfl
  | cons a attrs ih =>
    rcases List.forall_mem_cons.mp h with ⟨ha, hattrs⟩
    rw [run, Outcome.andThen_of_none (ha s)]
    exact ih hattrs _

theorem run_setAttr_error {attrs : List Attr} (ha : a ∈ attrs) (h : ∀ s, a.error mem s ≠ none)
    (s : DevState) : (run (setAttr mem) attrs s).err ≠ none := by
  induction attrs generalizing s with
  | nil => cases ha
  | cons b attrs ih =>
    intro hrun
    rcases Outcome.andThen_success hrun with ⟨hok, heq⟩
    rcases List.mem_cons.mp ha with rfl | ha
    · exact h s hok
    · rw [run, heq] at hrun
      exact ih ha _ hrun

theorem header_error (r : MagicHeader) (k : MsgIdx) (s : DevState) :
    (Attr.header k (specText r)).error .generous s = none ↔ r.start ≤ r.stop := by
  show (mhParse (s.dev.headers k) (nlaStrdup .generous s.next (specText r))).err = none ↔ _
  rw [nlaStrdup_generous (specText_lt r)]
  constructor
  · intro h
    by_contra hgt
    rw [mhParse_specText_inverted (BitVec.not_le.mp hgt)] at h
    cases h
  · intro hle
    rw [mhParse_specText hle]

/-- The attributes of a dump are accepted one by one exactly if no range is inverted. -/
theorem run_dump_iff (s : DevState) :
    (run (setAttr .generous) (dumpAttrs wg) s).err = none ↔
      ∀ k, (wg.headers k).start ≤ (wg.headers k).stop := by
  constructor
  · intro hrun k
    by_contra hgt
    refine run_setAttr_error (List.mem_filterMap.mpr
      ⟨.header k, mem_components _, dumpAttr_header wg k⟩) ?_ s hrun
    intro s' herr
    exact hgt ((header_error (wg.headers k) k s').mp herr)
  · intro hranges
    refine run_setAttr_ok ?_ s
    intro a ha s'
    rcases List.mem_filterMap.mp ha with ⟨c, -, hc⟩
    cases c with
    | header k =>
      rw [dumpAttr_header] at hc
      cases hc
      exact (header_error (wg.headers k) k s').mpr (hranges k)
    | ispec n =>
      rcases Option.map_eq_some_iff.mp hc with ⟨desc, -, rfl⟩
      rfl
    | imitateProtocol =>
      rw [dumpAttr] at hc
      split at hc
      · cases hc
        show (if nlaStrdup .generous s'.next (imitateProtoName wg.imitateProto) = none then _ else _) = _
        rw [nlaStrdup_generous (imitateProtoName_lt _)]
        rfl
      · cases hc
    | _ =>
      cases hc
      rfl

/-- The writes of a dump into a new device: the descriptors are copied, and nothing is compiled
yet. -/
theorem writeAll_dump (h : Accepted wg) (hranges : ∀ k, (wg.headers k).start ≤ (wg.headers k).stop)
    (i : ℕ) : (writeAll .generous (dumpAttrs wg) ⟨wgSetup, i⟩).dev = uncompiled wg := by
  have hattr := parseAttrs_attr wg
  have htakes : ∀ c, Takes .generous (parseAttrs (dumpAttrs wg)) wgSetup
      (writeAll .generous (dumpAttrs wg) ⟨wgSetup, i⟩).dev c := by
    intro c
    have hrun := (run_dump_iff (⟨wgSetup, i⟩ : DevState)).mpr hranges
    rw [← parseAttrs_attrs] at hrun
    have htakes := takes_attrs hrun c
    rwa [parseAttrs_attrs] at htakes
  unfold Takes at htakes
  refine WgDevice.ext ?_ ?_ ?_ ?_ ?_ ?_ ?_ ?_
  · funext n
    have hpacket := keepsPacket_writeAll .generous (dumpAttrs wg) ⟨wgSetup, i⟩ n
    have hdesc : (parseAttrs (dumpAttrs wg)).i n = (wg.ispecs n).desc :=
      Option.map_injective (fun _ _ heq => (Attr.ispec.inj heq).2) (hattr (.ispec n))
    have htake := htakes (.ispec n)
    dsimp only at htake
    rw [hdesc] at htake
    refine hpacket.trans (congrArg (fun desc => (⟨desc, none, [], 0⟩ : JpSpec)) ?_)
    cases hsome : (wg.ispecs n).desc with
    | none =>
      rw [hsome] at htake
      exact htake
    | some desc =>
      rw [hsome] at htake
      rcases htake with ⟨j, hcopy⟩
      rcases h.ispec n with ⟨mem, k, spec, herr, hspec⟩
      rw [hspec, jpSpecSetup_desc] at hsome
      rw [hcopy, nlaStrdup_generous (jpSpecSetup_desc_lt hsome herr)]
  · funext k
    have hspec : (parseAttrs (dumpAttrs wg)).h k = some (specText (wg.headers k)) :=
      Option.map_injective (fun _ _ heq => (Attr.header.inj heq).2)
        ((hattr (.header k)).trans (dumpAttr_header wg k))
    have htake := htakes (.header k)
    dsimp only at htake
    rw [hspec] at htake
    dsimp only at htake
    rw [mhParse_specText (hranges k)] at htake
    exact (congrArg Outcome.state htake).symm
  · funext k
    have hsize : (parseAttrs (dumpAttrs wg)).s k = some (wg.junkSize k) :=
      Option.map_injective (fun _ _ heq => (Attr.junkSize.inj heq).2) (hattr (.junkSize k))
    exact (htakes (.junkSize k)).trans (by rw [hsize]; rfl)
  · have hjc : (parseAttrs (dumpAttrs wg)).jc = some wg.jc :=
      Option.map_injective (fun _ _ => Attr.jc.inj) (hattr .jc)
    exact (htakes .jc).trans (by rw [hjc]; rfl)
  · have hjmin : (parseAttrs (dumpAttrs wg)).jmin = some wg.jmin :=
      Option.map_injective (fun _ _ => Attr.jmin.inj) (hattr .jmin)
    exact (htakes .jmin).trans (by rw [hjmin]; rfl)
  · have hjmax : (parseAttrs (dumpAttrs wg)).jmax = some wg.jmax :=
      Option.map_injective (fun _ _ => Attr.jmax.inj) (hattr .jmax)
    exact (htakes .jmax).trans (by rw [hjmax]; rfl)
  · refine (writeAll_advancedSecurity ?_ _).trans h.adv.symm
    exact List.cons_ne_nil _ _
  · have htake := htakes .imitateProtocol
    have hname := hattr .imitateProtocol
    rw [dumpAttr] at hname
    split at hname
    · have hsome : (parseAttrs (dumpAttrs wg)).imitateProtocol =
          some (imitateProtoName wg.imitateProto) :=
        Option.map_injective (fun _ _ => Attr.imitateProtocol.inj) hname
      rw [hsome] at htake
      exact htake.trans (imitateProtoParse_name _)
    · next hproto =>
      rw [Option.map_eq_none_iff.mp hname] at htake
      exact htake.trans (not_not.mp hproto).symm

/-- Validation of the writes of a dump gives the device back. -/
theorem postConfig_uncompiled (h : Accepted wg) (hs : s.dev = uncompiled wg) :
    (wgDeviceHandlePostConfig .generous s).err = none ∧
      (wgDeviceHandlePostConfig .generous s).state.dev = wg := by
  have hadj : adjustJmax s.dev = s.dev := by
    rw [hs]
    refine adjustJmax_of_eq (w := wg) ?_ ?_ ?_ <;> rw [h.adjusted] <;> rfl
  have hvalid : Valid (adjustJmax s.dev) := by
    rw [hadj, hs]
    exact h.valid.of_eq rfl rfl rfl rfl
  -- every descriptor compiles to what it was compiled to before
  have hcompile : ∀ n i, (jpSpecSetup .generous i (s.dev.ispecs n)).err = none ∧
      (jpSpecSetup .generous i (s.dev.ispecs n)).spec = wg.ispecs n := by
    intro n i
    rcases h.ispec n with ⟨mem, j, spec, herr, hspec⟩
    have hdesc : (s.dev.ispecs n).desc = spec.desc := by
      rw [hs]
      show (wg.ispecs n).desc = _
      rw [hspec, jpSpecSetup_desc]
    rw [hspec]
    exact jpSpecSetup_generous hdesc herr i
  have hrun : (setupIspecs .generous ⟨s.dev, s.next⟩).err = none :=
    run_setupIspec_ok (by decide) fun n _ i => (hcompile n i).1
  rcases postConfig_cases .generous s with ⟨hoff, -⟩ | ⟨-, hinvalid, -⟩ | ⟨-, -, heq⟩
  · rw [hs] at hoff
    exact absurd (hoff.symm.trans h.adv) (by decide)
  · exact absurd hvalid hinvalid
  · rw [heq, hadj]
    refine ⟨hrun, ?_⟩
    rcases setupIspecs_success hrun with ⟨idx, hdev, -⟩
    rw [hdev]
    have hrest : ∀ w : WgDevice, w = uncompiled wg →
        (∀ n i, (jpSpecSetup .generous i (w.ispecs n)).spec = wg.ispecs n) →
        compiled .generous idx (fun _ => True) w = wg := by
      rintro w rfl hspec
      refine WgDevice.ext ?_ rfl rfl rfl rfl rfl rfl rfl
      funext n
      exact (compiled_ispecs .generous idx _ n).trans (hspec n (idx n))
    exact hrest s.dev hs fun n i => (hcompile n i).2

/-! ## Result -/

/-- Apply to a new device what the dump of an accepted device emits: it is accepted exactly if
no range of the device is inverted, and then the new device is equal to the dumped one, the
compiled I-packets included. The text of a range never fills the buffer, and a range that is
not inverted is read back from it. -/
theorem dump_round_trip {mem : Kmalloc} {req : Request} {s : DevState}
    (h : (wgSetDevice mem req s).err = none)
    (hadv : (wgSetDevice mem req s).state.dev.advancedSecurity = true) (i : ℕ) :
    let wg := (wgSetDevice mem req s).state.dev
    let again := wgSetDevice .generous (parseAttrs (dumpAttrs wg)) ⟨wgSetup, i⟩
    (again.err = none ↔ ∀ k, (wg.headers k).start ≤ (wg.headers k).stop) ∧
    (again.err = none → again.state.dev = wg) ∧
    ∀ r : MagicHeader, mhGenspec r specBufLen = specText r ∧
      (r.start ≤ r.stop → ∀ mh, mhParse mh (some (mhGenspec r specBufLen)) = ⟨r, none⟩) := by
  intro wg again
  have hacc : Accepted wg := wgSetDevice_acceptedDevice h hadv
  rcases parseAttrs_stages wg with ⟨hearly, hpeers⟩
  have hstart : (Outcome.mk (⟨wgSetup, i⟩ : DevState) (parseAttrs (dumpAttrs wg)).early).andThen
      (run (setAttr .generous) (parseAttrs (dumpAttrs wg)).attrs) =
        run (setAttr .generous) (dumpAttrs wg) ⟨wgSetup, i⟩ := by
    rw [hearly, parseAttrs_attrs]
    rfl
  have hagain : again = ((run (setAttr .generous) (dumpAttrs wg) ⟨wgSetup, i⟩).andThen
      (wgDeviceHandlePostConfig .generous)).andThen fun s => ⟨s, none⟩ := by
    show wgSetDevice .generous (parseAttrs (dumpAttrs wg)) ⟨wgSetup, i⟩ = _
    rw [wgSetDevice, configure, hstart, hpeers]
  have hordered : (∀ k, (wg.headers k).start ≤ (wg.headers k).stop) →
      again.err = none ∧ again.state.dev = wg := by
    intro hranges
    have hrun := (run_dump_iff (⟨wgSetup, i⟩ : DevState)).mpr hranges
    have hpost := postConfig_uncompiled hacc (s := (run (setAttr .generous) (dumpAttrs wg)
      ⟨wgSetup, i⟩).state) (by
        rw [run_success hrun]
        exact writeAll_dump hacc hranges i)
    rw [hagain, Outcome.andThen_of_none hrun, Outcome.andThen_of_none hpost.1]
    exact ⟨rfl, hpost.2⟩
  have hiff : again.err = none ↔ ∀ k, (wg.headers k).start ≤ (wg.headers k).stop := by
    constructor
    · intro herr
      rw [hagain] at herr
      rcases Outcome.andThen_success herr with ⟨hconf, -⟩
      rcases Outcome.andThen_success hconf with ⟨hrun, -⟩
      exact (run_dump_iff _).mp hrun
    · intro hranges
      exact (hordered hranges).1
  refine ⟨hiff, fun herr => (hordered (hiff.mp herr)).2, ?_⟩
  intro r
  refine ⟨mhGenspec_eq r, ?_⟩
  intro hle mh
  rw [mhGenspec_eq]
  exact mhParse_specText hle mh

end Apply

/-- Obfuscation with a range, an I-packet and a protocol. -/
def fullRequest : Request where
  jc := some 3
  jmin := some 40
  jmax := some 40
  h := fun k => if k = .init then some (ascii "5-9") else none
  i := fun n => if n = 0 then some (ascii "<b 0xf6><c>") else none
  imitateProtocol := some (ascii "dns")

theorem dump_round_trip_full :
    let wg := (wgSetDevice .generous fullRequest ⟨wgSetup, 0⟩).state.dev
    let again := wgSetDevice .generous (parseAttrs (dumpAttrs wg)) ⟨wgSetup, 0⟩
    again.err = none ∧ again.state.dev = wg := by
  have h : (wgSetDevice .generous fullRequest ⟨wgSetup, 0⟩).err = none := by decide +kernel
  have hadv : (wgSetDevice .generous fullRequest ⟨wgSetup, 0⟩).state.dev.advancedSecurity = true := by
    decide +kernel
  have hranges : ∀ k, ((wgSetDevice .generous fullRequest ⟨wgSetup, 0⟩).state.dev.headers k).start ≤
      ((wgSetDevice .generous fullRequest ⟨wgSetup, 0⟩).state.dev.headers k).stop := by
    intro k
    cases k <;> decide +kernel
  rcases dump_round_trip h hadv 0 with ⟨hiff, heq, -⟩
  exact ⟨hiff.mpr hranges, heq (hiff.mpr hranges)⟩

/-- `H1 = "10-5"`, which is rejected, and a request that only sets `Jc`. -/
def invertedHeader : Request where
  h := fun k => if k = .init then some (ascii "10-5") else none

def jcOnly : Request where
  jc := some 0

/-- A rejected range stays behind, the next request is accepted with it, and its dump is
rejected. -/
theorem dump_inverted :
    let s := (wgSetDevice .generous invertedHeader ⟨wgSetup, 0⟩).state
    let r := wgSetDevice .generous jcOnly s
    r.err = none ∧ r.state.dev.advancedSecurity = true ∧
      (wgSetDevice .generous (parseAttrs (dumpAttrs r.state.dev)) ⟨wgSetup, 0⟩).err =
        some .EINVAL := by
  decide +kernel

end AmneziaWg

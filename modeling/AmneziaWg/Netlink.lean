import AmneziaWg.Device

/-!
# Configuration requests

The obfuscation part of `wg_set_device`. Each attribute of a request is written
into the live device as it is read; the validation comes last. An error ends the
request where it occurs, and nothing is undone.

* **Model**: `Attr.write` and `Attr.error` (one attribute), `Request.attrs` (the order
  of the source), `wgSetDevice`.
* **Abstract layer**: `Takes` (a component has what the request says), `Keeps` (it is as
  it was), `Remains`.
* **Results**: `configure_accepted`; `wgSetDevice_rejected` says component by component
  what a rejected request leaves behind.
-/

namespace AmneziaWg

open Linux Junk Stepwise

/-! ## Model layer -/

/-- An obfuscation attribute of a request; strings end at their first NUL. -/
inductive Attr where
  | jc (v : U16)
  | jmin (v : U16)
  | jmax (v : U16)
  | junkSize (k : MsgIdx) (v : U16)
  | header (k : MsgIdx) (desc : Bytes)
  | ispec (n : Fin 5) (desc : Bytes)
  | imitateProtocol (name : Bytes)

/-- `nla_strdup`: a copy, or `NULL`. -/
def nlaStrdup (mem : Kmalloc) (i : ℕ) (s : Bytes) : Option Bytes :=
  if mem.grants i (s.length + 1) then some s else none

/-- What an attribute leaves in the device, whether it is accepted or not. -/
def Attr.write (mem : Kmalloc) (s : DevState) (a : Attr) : DevState :=
  let wg := { s.dev with advancedSecurity := true }
  match a with
  | .jc v => ⟨{ wg with jc := v }, s.next⟩
  | .jmin v => ⟨{ wg with jmin := v }, s.next⟩
  | .jmax v => ⟨{ wg with jmax := v }, s.next⟩
  | .junkSize k v => ⟨{ wg with junkSize := Function.update wg.junkSize k v }, s.next⟩
  | .header k desc =>
    let mh := (mhParse (wg.headers k) (nlaStrdup mem s.next desc)).state
    ⟨{ wg with headers := Function.update wg.headers k mh }, s.next + 1⟩
  | .ispec n desc =>
    let spec := { wg.ispecs n with desc := nlaStrdup mem s.next desc }
    ⟨{ wg with ispecs := Function.update wg.ispecs n spec }, s.next + 1⟩
  | .imitateProtocol name =>
    let proto := match nlaStrdup mem s.next name with
      | none => wg.imitateProto
      | some str => imitateProtoParse (some str)
    ⟨{ wg with imitateProto := proto }, s.next + 1⟩

/-- The error of an attribute: only a range that does not parse, or a protocol name
that cannot be copied. An I-packet that cannot be copied is none. -/
def Attr.error (mem : Kmalloc) (s : DevState) (a : Attr) : Option Errno :=
  match a with
  | .header k desc => (mhParse (s.dev.headers k) (nlaStrdup mem s.next desc)).err
  | .imitateProtocol name => if nlaStrdup mem s.next name = none then some .ENOMEM else none
  | _ => none

def setAttr (mem : Kmalloc) (a : Attr) (s : DevState) : Outcome DevState Errno :=
  ⟨a.write mem s, a.error mem s⟩

/-- A `WG_CMD_SET_DEVICE` request: the obfuscation attributes, and the errors of the
stages before them (permissions, port) and behind the validation (peers). -/
structure Request where
  early : Option Errno := none
  jc : Option U16 := none
  jmin : Option U16 := none
  jmax : Option U16 := none
  s : MsgIdx → Option U16 := fun _ => none
  h : MsgIdx → Option Bytes := fun _ => none
  i : Fin 5 → Option Bytes := fun _ => none
  imitateProtocol : Option Bytes := none
  peers : Option Errno := none

/-- What an attribute configures. -/
inductive Component where
  | jc
  | jmin
  | jmax
  | junkSize (k : MsgIdx)
  | header (k : MsgIdx)
  | ispec (n : Fin 5)
  | imitateProtocol
deriving DecidableEq, Repr

/-- The order in which the source tests for the attributes. -/
def components : List Component :=
  [.jc, .jmin, .jmax, .junkSize .init, .junkSize .response,
    .header .init, .header .response, .header .cookie, .header .transport,
    .junkSize .cookie, .junkSize .transport,
    .ispec 0, .ispec 1, .ispec 2, .ispec 3, .ispec 4, .imitateProtocol]

/-- The attribute of the request for a component. -/
def Request.attr (req : Request) : Component → Option Attr
  | .jc => req.jc.map .jc
  | .jmin => req.jmin.map .jmin
  | .jmax => req.jmax.map .jmax
  | .junkSize k => (req.s k).map (.junkSize k)
  | .header k => (req.h k).map (.header k)
  | .ispec n => (req.i n).map (.ispec n)
  | .imitateProtocol => req.imitateProtocol.map .imitateProtocol

/-- The attributes that are present, in order. -/
def Request.attrs (req : Request) : List Attr := components.filterMap req.attr

/-- The writes of a list of attributes, one after the other. -/
def writeAll (mem : Kmalloc) (attrs : List Attr) (s : DevState) : DevState :=
  attrs.foldl (Attr.write mem) s

/-- The obfuscation part of `wg_set_device`, to the end of the validation. -/
def configure (mem : Kmalloc) (req : Request) (s : DevState) : Outcome DevState Errno :=
  ((Outcome.mk s req.early).andThen (run (setAttr mem) req.attrs)).andThen
    (wgDeviceHandlePostConfig mem)

/-- `wg_set_device`, as far as it touches the obfuscation configuration. -/
def wgSetDevice (mem : Kmalloc) (req : Request) (s : DevState) : Outcome DevState Errno :=
  (configure mem req s).andThen fun s => ⟨s, req.peers⟩

/-! ## Abstract layer -/

/-- A component has what the request says: the value of its attribute, or the old one if
there is none. A descriptor may get lost when it is copied. -/
def Takes (mem : Kmalloc) (req : Request) (wg wg' : WgDevice) : Component → Prop
  | .jc => wg'.jc = req.jc.getD wg.jc
  | .jmin => wg'.jmin = req.jmin.getD wg.jmin
  | .jmax => wg'.jmax = req.jmax.getD wg.jmax
  | .junkSize k => wg'.junkSize k = (req.s k).getD (wg.junkSize k)
  | .header k =>
    match req.h k with
    | none => wg'.headers k = wg.headers k
    | some desc => mhParse (wg.headers k) (some desc) = ⟨wg'.headers k, none⟩
  | .ispec n =>
    match req.i n with
    | none => (wg'.ispecs n).desc = (wg.ispecs n).desc
    | some desc => ∃ i, (wg'.ispecs n).desc = nlaStrdup mem i desc
  | .imitateProtocol =>
    match req.imitateProtocol with
    | none => wg'.imitateProto = wg.imitateProto
    | some name => wg'.imitateProto = imitateProtoParse (some name)

/-- A component is as it was. -/
def Keeps (wg wg' : WgDevice) : Component → Prop
  | .jc => wg'.jc = wg.jc
  | .jmin => wg'.jmin = wg.jmin
  | .jmax => wg'.jmax = wg.jmax
  | .junkSize k => wg'.junkSize k = wg.junkSize k
  | .header k => wg'.headers k = wg.headers k
  | .ispec n => (wg'.ispecs n).desc = (wg.ispecs n).desc
  | .imitateProtocol => wg'.imitateProto = wg.imitateProto

/-- What is compiled for an I-packet is as it was. -/
def KeepsPacket (wg wg' : WgDevice) (n : Fin 5) : Prop :=
  wg'.ispecs n = { wg.ispecs n with desc := (wg'.ispecs n).desc }

/-- The request is wrong about a component: a range that does not parse, or a protocol name
that cannot be copied. -/
def Fails (mem : Kmalloc) (req : Request) (e : Errno) : Component → Prop
  | .header k => ∃ desc i, req.h k = some desc ∧ ∀ mh, (mhParse mh (nlaStrdup mem i desc)).err = some e
  | .imitateProtocol =>
    ∃ name i, req.imitateProtocol = some name ∧ nlaStrdup mem i name = none ∧ e = .ENOMEM
  | _ => False

/-- All components have what the request says, but for the adjustment of `jmax`. -/
structure TakesAll (mem : Kmalloc) (req : Request) (wg wg' : WgDevice) : Prop where
  takes : ∀ c, c ≠ .jmax → Takes mem req wg wg' c
  jmax : wg'.jmax = if wg'.jc ≠ 0 ∧ wg'.jmin = req.jmax.getD wg.jmax
    then req.jmax.getD wg.jmax + 1 else req.jmax.getD wg.jmax
  adv : wg'.advancedSecurity = true

/-- What a request that is rejected with `e` leaves of `wg`. -/
inductive Remains (mem : Kmalloc) (req : Request) (wg : WgDevice) (e : Errno) (wg' : WgDevice) : Prop
  /-- A stage before the obfuscation attributes failed. -/
  | early (h : req.early = some e) (hsame : wg' = wg)
  /-- An attribute failed: the components in front of it have what the request says, those
  behind it are as they were. Nothing is said about the range that did not parse. -/
  | attr (before : List Component) (c : Component) (after : List Component)
      (hsplit : components = before ++ c :: after) (hfails : Fails mem req e c)
      (htakes : ∀ c' ∈ before, Takes mem req wg wg' c') (hkeeps : ∀ c' ∈ after, Keeps wg wg' c')
      (hproto : c = .imitateProtocol → Keeps wg wg' c) (hpackets : ∀ n, KeepsPacket wg wg' n)
      (hadv : wg'.advancedSecurity = true)
  /-- Validation failed: everything is as the request says, and nothing is compiled. -/
  | invalid (hall : TakesAll mem req wg wg') (hpackets : ∀ n, KeepsPacket wg wg' n)
      (hinvalid : ¬ Valid wg') (he : e = .EINVAL)
  /-- I-packet `n` failed: everything is as the request says, those before `n` are compiled,
  and what is compiled for those behind it is as it was. -/
  | ispec (n : Fin 5) (hall : TakesAll mem req wg wg') (hvalid : Valid wg')
      (hbefore : ∀ m < n, ∃ i, (jpSpecSetup mem i (wg'.ispecs m)).err = none ∧
        (jpSpecSetup mem i (wg'.ispecs m)).spec = wg'.ispecs m)
      (hfails : ∃ i, (jpSpecSetup mem i (wg'.ispecs n)).err = some e ∧
        (jpSpecSetup mem i (wg'.ispecs n)).spec = wg'.ispecs n)
      (hafter : ∀ m > n, KeepsPacket wg wg' m)

/-! ## Writes -/

variable {req : Request} {s : DevState}

/-- Without an error before it, validation starts from all writes. -/
theorem configure_attrs {mem : Kmalloc}
    (h : ((Outcome.mk s req.early).andThen (run (setAttr mem) req.attrs)).err = none) :
    req.early = none ∧ (run (setAttr mem) req.attrs s).err = none ∧
      ((Outcome.mk s req.early).andThen (run (setAttr mem) req.attrs)).state =
        writeAll mem req.attrs s := by
  rcases Outcome.andThen_success h with ⟨hearly, heq⟩
  rw [heq] at h ⊢
  exact ⟨hearly, h, run_success h⟩

variable {c : Component} {a : Attr}

section Writes

variable {mem : Kmalloc}

/-- The component that an attribute writes. -/
def Attr.component : Attr → Component
  | .jc _ => .jc
  | .jmin _ => .jmin
  | .jmax _ => .jmax
  | .junkSize k _ => .junkSize k
  | .header k _ => .header k
  | .ispec n _ => .ispec n
  | .imitateProtocol _ => .imitateProtocol

theorem Request.attr_component (h : req.attr c = some a) : a.component = c := by
  cases c <;> rcases Option.map_eq_some_iff.mp h with ⟨v, -, rfl⟩ <;> rfl

theorem mem_components (c : Component) : c ∈ components := by
  cases c with
  | junkSize k => cases k <;> decide
  | header k => cases k <;> decide
  | ispec n => revert n; decide
  | _ => decide

theorem Keeps.rfl {wg : WgDevice} : Keeps wg wg c := by
  cases c <;> exact Eq.refl _

theorem Keeps.trans {wg wg' wg'' : WgDevice} (h : Keeps wg wg' c) (h' : Keeps wg' wg'' c) :
    Keeps wg wg'' c := by
  unfold Keeps at *
  cases c <;> exact Eq.trans h' h

/-- What a component takes depends on nothing but this component. -/
theorem Takes.congr {wg₀ wg wg' wg'' : WgDevice} (h : Takes mem req wg wg' c)
    (hbefore : Keeps wg₀ wg c) (hafter : Keeps wg' wg'' c) : Takes mem req wg₀ wg'' c := by
  unfold Takes Keeps at *
  cases c <;> dsimp only at * <;> rw [hafter, ← hbefore] <;> exact h

/-- The write of an attribute keeps the other components. -/
theorem keeps_write (h : a.component ≠ c) (s : DevState) : Keeps s.dev (a.write mem s).dev c := by
  cases a <;> cases c <;>
    first
    | rfl
    | exact absurd rfl h
    | exact Function.update_of_ne (fun heq => h (congrArg _ heq.symm)) ..
    | exact congrArg JpSpec.desc (Function.update_of_ne (fun heq => h (congrArg _ heq.symm)) ..)

/-- One component of a request. -/
def Request.step (mem : Kmalloc) (req : Request) (s : DevState) (c : Component) : DevState :=
  (req.attr c).elim s (Attr.write mem s)

theorem keeps_step (req : Request) {c' : Component} (h : c' ≠ c) (s : DevState) :
    Keeps s.dev (req.step mem s c').dev c := by
  unfold Request.step
  cases hattr : req.attr c' with
  | none => exact .rfl
  | some a =>
    refine keeps_write ?_ s
    rw [Request.attr_component hattr]
    exact h

theorem writeAll_filterMap_cons (req : Request) (c : Component) (cs : List Component)
    (s : DevState) :
    writeAll mem ((c :: cs).filterMap req.attr) s =
      writeAll mem (cs.filterMap req.attr) (req.step mem s c) := by
  unfold Request.step
  cases h : req.attr c with
  | none => rw [List.filterMap_cons_none h]; rfl
  | some a => rw [List.filterMap_cons_some h]; rfl

theorem run_filterMap_cons {cs : List Component}
    (h : (run (setAttr mem) ((c :: cs).filterMap req.attr) s).err = none) :
    (∀ a, req.attr c = some a → a.error mem s = none) ∧
      (run (setAttr mem) (cs.filterMap req.attr) (req.step mem s c)).err = none := by
  unfold Request.step
  cases hattr : req.attr c with
  | none =>
    rw [List.filterMap_cons_none hattr] at h
    exact ⟨(fun a ha => nomatch ha), h⟩
  | some a =>
    rw [List.filterMap_cons_some hattr] at h
    rcases Outcome.andThen_success h with ⟨herr, heq⟩
    rw [run, heq] at h
    refine ⟨?_, h⟩
    intro b hb
    cases hb
    exact herr

/-- The components without an attribute in the list are as they were. -/
theorem keeps_writeAll (req : Request) {cs : List Component} (hc : c ∉ cs) (s : DevState) :
    Keeps s.dev (writeAll mem (cs.filterMap req.attr) s).dev c := by
  induction cs generalizing s with
  | nil => exact .rfl
  | cons c' cs ih =>
    rw [List.mem_cons, not_or] at hc
    rw [writeAll_filterMap_cons]
    exact (keeps_step req (Ne.symm hc.1) s).trans (ih hc.2 _)

/-- A range that was accepted was copied, and is the one of the text. -/
theorem mhParse_of_copied {mem : Kmalloc} {mh : MagicHeader} {i : ℕ} {desc : Bytes}
    (h : (mhParse mh (nlaStrdup mem i desc)).err = none) :
    mhParse mh (some desc) = ⟨(mhParse mh (nlaStrdup mem i desc)).state, none⟩ := by
  unfold nlaStrdup at h ⊢
  split at h
  · next hgrant =>
    rw [if_pos hgrant]
    exact Outcome.ext rfl h
  · cases h

/-- A component whose attribute has no error has what the request says. -/
theorem takes_step (herr : ∀ a, req.attr c = some a → a.error mem s = none) :
    Takes mem req s.dev (req.step mem s c).dev c := by
  unfold Takes Request.step
  cases c with
  | jc => dsimp only [Request.attr]; cases req.jc <;> rfl
  | jmin => dsimp only [Request.attr]; cases req.jmin <;> rfl
  | jmax => dsimp only [Request.attr]; cases req.jmax <;> rfl
  | junkSize k =>
    dsimp only [Request.attr]
    cases req.s k with
    | none => rfl
    | some v => exact Function.update_self ..
  | header k =>
    dsimp only [Request.attr] at herr ⊢
    cases hdesc : req.h k with
    | none => rfl
    | some desc =>
      rw [hdesc] at herr
      have hself : ((Attr.header k desc).write mem s).dev.headers k =
          (mhParse (s.dev.headers k) (nlaStrdup mem s.next desc)).state :=
        Function.update_self ..
      exact (mhParse_of_copied (herr (.header k desc) rfl)).trans
        (congrArg (Outcome.mk · none) hself.symm)
  | ispec n =>
    dsimp only [Request.attr]
    cases req.i n with
    | none => rfl
    | some desc =>
      -- a copy that failed is no error
      have hself : ((Attr.ispec n desc).write mem s).dev.ispecs n =
          { s.dev.ispecs n with desc := nlaStrdup mem s.next desc } :=
        Function.update_self ..
      exact ⟨s.next, congrArg JpSpec.desc hself⟩
  | imitateProtocol =>
    dsimp only [Request.attr] at herr ⊢
    cases hname : req.imitateProtocol with
    | none => rfl
    | some name =>
      -- without an error the name was copied
      rw [hname] at herr
      have hok : (if nlaStrdup mem s.next name = none then some Errno.ENOMEM else none) = none :=
        herr (.imitateProtocol name) rfl
      show (match nlaStrdup mem s.next name with
        | none => s.dev.imitateProto
        | some str => imitateProtoParse (some str)) = _
      unfold nlaStrdup at hok ⊢
      by_cases hgrant : mem.grants s.next (name.length + 1)
      · rw [if_pos hgrant]
      · rw [if_neg hgrant] at hok
        cases hok

/-- The components whose attributes are written, one after the other and without error, have
what the request says. -/
theorem takes_writeAll {cs : List Component} (hnodup : cs.Nodup)
    (hrun : (run (setAttr mem) (cs.filterMap req.attr) s).err = none) (hc : c ∈ cs) :
    Takes mem req s.dev (writeAll mem (cs.filterMap req.attr) s).dev c := by
  induction cs generalizing s with
  | nil => cases hc
  | cons c' cs ih =>
    rcases List.nodup_cons.mp hnodup with ⟨hc', hnodup⟩
    rcases run_filterMap_cons hrun with ⟨herr, hrun⟩
    rw [writeAll_filterMap_cons]
    by_cases hcc : c' = c
    · -- the attribute itself; the rest of the list is for other components
      subst hcc
      exact (takes_step herr).congr .rfl (keeps_writeAll req hc' _)
    · have hmem : c ∈ cs := (List.mem_cons.mp hc).resolve_left (Ne.symm hcc)
      exact (ih hnodup hrun hmem).congr (keeps_step req hcc s) .rfl

/-- All components of a request whose attributes are accepted. -/
theorem takes_attrs (hrun : (run (setAttr mem) req.attrs s).err = none) (c : Component) :
    Takes mem req s.dev (writeAll mem req.attrs s).dev c :=
  takes_writeAll (by decide) hrun (mem_components c)

/-- No attribute compiles anything. -/
theorem keepsPacket_writeAll (mem : Kmalloc) (attrs : List Attr) (s : DevState) (n : Fin 5) :
    KeepsPacket s.dev (writeAll mem attrs s).dev n := by
  induction attrs generalizing s with
  | nil => rfl
  | cons a attrs ih =>
    have hone : KeepsPacket s.dev (a.write mem s).dev n := by
      unfold KeepsPacket
      cases a with
      | ispec m desc =>
        let spec := { s.dev.ispecs m with desc := nlaStrdup mem s.next desc }
        show Function.update s.dev.ispecs m spec n =
          { s.dev.ispecs n with desc := (Function.update s.dev.ispecs m spec n).desc }
        by_cases hmn : n = m
        · subst hmn
          rw [Function.update_self]
        · rw [Function.update_of_ne hmn]
      | _ => rfl
    have hrest := ih (a.write mem s)
    unfold KeepsPacket at hone hrest ⊢
    rw [hone] at hrest
    exact hrest

/-- The range of a kind after an accepted request: the one of the attribute, or the old. -/
def Request.header (req : Request) (wg : WgDevice) (k : MsgIdx) : MagicHeader :=
  match req.h k with
  | none => wg.headers k
  | some desc => (mhParse (wg.headers k) (some desc)).state

theorem writeAll_header (hrun : (run (setAttr mem) req.attrs s).err = none) (k : MsgIdx) :
    (writeAll mem req.attrs s).dev.headers k = req.header s.dev k := by
  have htakes := takes_attrs hrun (.header k)
  rw [Request.header]
  unfold Takes at htakes
  dsimp only at htakes
  cases hdesc : req.h k with
  | none =>
    rw [hdesc] at htakes
    exact htakes
  | some desc =>
    rw [hdesc] at htakes
    exact (congrArg Outcome.state htakes).symm

/-- The flag is set by any attribute. -/
theorem writeAll_advancedSecurity {attrs : List Attr} (h : attrs ≠ []) (s : DevState) :
    (writeAll mem attrs s).dev.advancedSecurity = true := by
  have hwrite : ∀ (a : Attr) (s : DevState), (a.write mem s).dev.advancedSecurity = true := by
    intro a s
    cases a <;> rfl
  rcases List.eq_nil_or_concat attrs with hnil | ⟨rest, a, rfl⟩
  · exact absurd hnil h
  · rw [writeAll, List.concat_eq_append, List.foldl_append]
    exact hwrite a _

/-- A request that passes validation leaves the adjusted writes with all I-packets
compiled, or had nothing to validate. -/
theorem configure_accepted (h : (configure mem req s).err = none) :
    (s.dev.advancedSecurity = false ∧ req.attrs = [] ∧
      (configure mem req s).state.dev = s.dev) ∨
    ∃ idx, Valid (adjustJmax (writeAll mem req.attrs s).dev) ∧
      (run (setAttr mem) req.attrs s).err = none ∧
      (configure mem req s).state.dev =
        compiled mem idx (fun _ => True) (adjustJmax (writeAll mem req.attrs s).dev) := by
  unfold configure at h ⊢
  rcases Outcome.andThen_success h with ⟨hattrs, heq⟩
  rcases configure_attrs hattrs with ⟨-, hrun, hstate⟩
  rw [heq, hstate] at h ⊢
  rcases postConfig_cases mem (writeAll mem req.attrs s) with
    ⟨hadv, hres⟩ | ⟨-, -, hres⟩ | ⟨-, hvalid, hres⟩
  · -- nothing to validate: the request had no attributes
    have hnil : req.attrs = [] := by
      by_contra hne
      rw [writeAll_advancedSecurity hne] at hadv
      cases hadv
    rw [hres]
    rw [hnil] at hadv ⊢
    exact .inl ⟨hadv, rfl, rfl⟩
  · rw [hres] at h
    cases h
  · rw [hres] at h ⊢
    rcases setupIspecs_success h with ⟨idx, hdev, -⟩
    exact .inr ⟨idx, hvalid, hrun, hdev⟩

end Writes

/-! ## Rejected requests -/

section Rejected

variable {mem : Kmalloc} {req : Request} {s : DevState} {wg wg' : WgDevice}

/-- Whether a text parses does not depend on the range that was there. -/
theorem mhParse_err (mh mh' : MagicHeader) (desc : Option Bytes) :
    (mhParse mh desc).err = (mhParse mh' desc).err := by
  unfold mhParse
  split
  · rfl
  · split
    · rfl
    · split
      · rfl
      · split <;> rfl

/-- Only a range or a protocol name can fail. -/
theorem fails_of_error {e : Errno} (hattr : req.attr c = some a) (herr : a.error mem s = some e) :
    Fails mem req e c ∧ (c = .imitateProtocol → Keeps s.dev (a.write mem s).dev c) := by
  cases c with
  | header k =>
    rcases Option.map_eq_some_iff.mp hattr with ⟨desc, hdesc, rfl⟩
    refine ⟨⟨desc, s.next, hdesc, fun mh => (mhParse_err ..).trans herr⟩, ?_⟩
    intro hc
    cases hc
  | imitateProtocol =>
    rcases Option.map_eq_some_iff.mp hattr with ⟨name, hname, rfl⟩
    unfold Attr.error at herr
    dsimp only at herr
    split at herr
    · next hnone =>
      cases herr
      refine ⟨⟨name, s.next, hname, hnone, rfl⟩, fun _ => ?_⟩
      show (match nlaStrdup mem s.next name with
        | none => s.dev.imitateProto
        | some str => imitateProtoParse (some str)) = _
      rw [hnone]
    · cases herr
  | _ =>
    rcases Option.map_eq_some_iff.mp hattr with ⟨v, -, rfl⟩
    cases herr

/-- An attribute fails. -/
theorem remains_attr {done rest : List Attr} {e : Errno} (hsplit : req.attrs = done ++ a :: rest)
    (hdone : (run (setAttr mem) done s).err = none)
    (herr : a.error mem (writeAll mem done s) = some e) :
    Remains mem req s.dev e (writeAll mem (done ++ [a]) s).dev := by
  -- the components up to the one that fails
  rcases List.filterMap_eq_append_iff.mp hsplit with ⟨l₁, l₂, hl, rfl, hrest⟩
  rcases List.filterMap_eq_cons_iff.mp hrest with ⟨gap, c, after, rfl, hgap, hattr, -⟩
  have hgap' : gap.filterMap req.attr = [] := List.filterMap_eq_nil_iff.mpr hgap
  have hbefore : (l₁ ++ gap).filterMap req.attr = l₁.filterMap req.attr := by
    rw [List.filterMap_append, hgap', List.append_nil]
  have hcomponents : components = (l₁ ++ gap) ++ c :: after := by rw [hl, List.append_assoc]
  rw [← hbefore] at hdone herr ⊢
  have hnodup : ((l₁ ++ gap) ++ c :: after).Nodup := by
    rw [← hcomponents]
    decide
  rcases List.nodup_append.mp hnodup with ⟨hnodup₁, hnodup₂, hdisjoint⟩
  have hlast : writeAll mem ((l₁ ++ gap).filterMap req.attr ++ [a]) s =
      a.write mem (writeAll mem ((l₁ ++ gap).filterMap req.attr) s) := List.foldl_append ..
  have hcomponent := Request.attr_component hattr
  rcases fails_of_error hattr herr with ⟨hfails, hproto⟩
  have hc : c ∉ l₁ ++ gap := fun hmem => hdisjoint c hmem c (List.mem_cons_self ..) rfl
  refine .attr (l₁ ++ gap) c after hcomponents hfails ?_ ?_ ?_ ?_ ?_
  · intro c' hc'
    have hne : a.component ≠ c' := by
      rw [hcomponent]
      exact fun heq => hc (heq ▸ hc')
    rw [hlast]
    exact (takes_writeAll hnodup₁ hdone hc').congr .rfl (keeps_write hne _)
  · intro c' hc'
    have hne : a.component ≠ c' := by
      rw [hcomponent]
      exact fun heq => (List.nodup_cons.mp hnodup₂).1 (heq ▸ hc')
    have hc'' : c' ∉ l₁ ++ gap :=
      fun hmem => hdisjoint c' hmem c' (List.mem_cons_of_mem c hc') rfl
    rw [hlast]
    exact Keeps.trans (keeps_writeAll req hc'' s) (keeps_write hne _)
  · intro heq
    rw [hlast]
    exact Keeps.trans (keeps_writeAll req hc s) (hproto heq)
  · exact keepsPacket_writeAll mem _ s
  · rw [hlast]
    cases a <;> rfl

/-- All attributes are written, and `jmax` is adjusted. -/
theorem takesAll_adjustJmax (hrun : (run (setAttr mem) req.attrs s).err = none)
    (hadv : (writeAll mem req.attrs s).dev.advancedSecurity = true) :
    TakesAll mem req s.dev (adjustJmax (writeAll mem req.attrs s).dev) := by
  have hjmax : (writeAll mem req.attrs s).dev.jmax = req.jmax.getD s.dev.jmax :=
    takes_attrs hrun .jmax
  constructor
  · intro c hc
    refine (takes_attrs hrun c).congr .rfl ?_
    unfold adjustJmax
    split
    · cases c with
      | jmax => exact absurd rfl hc
      | _ => rfl
    · cases c <;> rfl
  · rw [← hjmax]
    unfold adjustJmax
    split <;> rfl
  · unfold adjustJmax
    split <;> exact hadv

theorem adjustJmax_ispecs (wg : WgDevice) : (adjustJmax wg).ispecs = wg.ispecs := by
  unfold adjustJmax
  split <;> rfl

/-- Compilation changes neither a descriptor nor another component. -/
theorem TakesAll.compiled (h : TakesAll mem req wg wg') (idx : Fin 5 → ℕ) (p : Fin 5 → Prop)
    [DecidablePred p] : TakesAll mem req wg (AmneziaWg.compiled mem idx p wg') := by
  refine ⟨fun c hc => (h.takes c hc).congr .rfl ?_, h.jmax, h.adv⟩
  cases c with
  | ispec n =>
    show (if p n then (setupOf mem idx wg' n).spec else wg'.ispecs n).desc = _
    split
    · exact jpSpecSetup_desc ..
    · rfl
  | _ => rfl

/-- A compiled I-packet is what its own descriptor compiles to. -/
theorem setup_compiled {idx : Fin 5 → ℕ} {p : Fin 5 → Prop} [DecidablePred p] {m : Fin 5} (hm : p m) :
    jpSpecSetup mem (idx m) ((compiled mem idx p wg).ispecs m) = setupOf mem idx wg m ∧
      (compiled mem idx p wg).ispecs m = (setupOf mem idx wg m).spec := by
  have hself : (compiled mem idx p wg).ispecs m = (setupOf mem idx wg m).spec := if_pos hm
  refine ⟨?_, hself⟩
  have hdesc : ((compiled mem idx p wg).ispecs m).desc = (wg.ispecs m).desc := by
    rw [hself]
    exact jpSpecSetup_desc ..
  unfold setupOf jpSpecSetup
  rw [hdesc]

/-- Validation or an I-packet fails. -/
theorem remains_postConfig {e : Errno} (hrun : (run (setAttr mem) req.attrs s).err = none)
    (h : (wgDeviceHandlePostConfig mem (writeAll mem req.attrs s)).err = some e) :
    Remains mem req s.dev e (wgDeviceHandlePostConfig mem (writeAll mem req.attrs s)).state.dev := by
  have hpackets : ∀ n, KeepsPacket s.dev (adjustJmax (writeAll mem req.attrs s).dev) n := by
    intro n
    unfold KeepsPacket
    rw [adjustJmax_ispecs]
    exact keepsPacket_writeAll mem _ s n
  rcases postConfig_cases mem (writeAll mem req.attrs s) with
    ⟨-, hres⟩ | ⟨hadv, hinvalid, hres⟩ | ⟨hadv, hvalid, hres⟩
  · rw [hres] at h
    cases h
  · rw [hres] at h ⊢
    cases h
    exact .invalid (takesAll_adjustJmax hrun hadv) hpackets hinvalid rfl
  · rw [hres] at h ⊢
    rcases setupIspecs_error h with ⟨n, idx, hdev, hbefore, herr⟩
    rw [hdev]
    refine .ispec n ((takesAll_adjustJmax hrun hadv).compiled idx _) ?_ ?_ ?_ ?_
    · exact ⟨hvalid.jmax_lt, hvalid.jmin_le, hvalid.junk, hvalid.headers⟩
    · intro m hmn
      rcases @setup_compiled mem (adjustJmax (writeAll mem req.attrs s).dev) idx (· ≤ n) _ m
        (le_of_lt hmn) with ⟨hsetup, hself⟩
      exact ⟨idx m, by rw [hsetup]; exact hbefore m hmn, by rw [hsetup, hself]⟩
    · rcases @setup_compiled mem (adjustJmax (writeAll mem req.attrs s).dev) idx (· ≤ n) _ n
        (le_refl n) with ⟨hsetup, hself⟩
      exact ⟨idx n, by rw [hsetup]; exact herr, by rw [hsetup, hself]⟩
    · intro m hmn
      have hold : (compiled mem idx (· ≤ n) (adjustJmax (writeAll mem req.attrs s).dev)).ispecs m =
          (adjustJmax (writeAll mem req.attrs s).dev).ispecs m := if_neg (not_le_of_gt hmn)
      unfold KeepsPacket
      rw [hold]
      exact hpackets m

end Rejected

/-- A request that its obfuscation attributes get rejected is not rolled back: the components
in front of the point of failure have what the request says, those behind it are as they
were. -/
theorem wgSetDevice_rejected (mem : Kmalloc) (req : Request) (s : DevState) (e : Errno)
    (h : (configure mem req s).err = some e) :
    (wgSetDevice mem req s).err = some e ∧
      Remains mem req s.dev e (wgSetDevice mem req s).state.dev := by
  rw [wgSetDevice, Outcome.andThen_of_some h]
  refine ⟨h, ?_⟩
  unfold configure at h ⊢
  rcases Outcome.andThen_error h with ⟨hattrs, heq⟩ | ⟨hattrs, heq⟩
  · rw [heq]
    rcases Outcome.andThen_error hattrs with ⟨hearly, heq⟩ | ⟨hearly, heq⟩
    · rw [heq]
      exact .early hearly rfl
    · -- an attribute failed
      rw [heq] at hattrs ⊢
      rcases run_error hattrs with ⟨done, a, rest, hsplit, hdone, herr, hstate⟩
      rw [hstate]
      exact remains_attr hsplit hdone herr
  · -- validation failed
    rcases configure_attrs hattrs with ⟨-, hrun, hstate⟩
    rw [heq, hstate] at h
    rw [heq, hstate]
    exact remains_postConfig hrun h

/-- `Jc = 5` together with `H1 = "x"`. -/
def badHeader : Request where
  jc := some 5
  h := fun k => if k = .init then some (ascii "x") else none

/-- The range does not parse, and the new `jc` stays. -/
theorem wgSetDevice_badHeader :
    (wgSetDevice .generous badHeader ⟨wgSetup, 0⟩).err = some .EINVAL ∧
      (wgSetDevice .generous badHeader ⟨wgSetup, 0⟩).state.dev.jc = 5 ∧
      wgSetup.jc = 0 := by
  decide +kernel

theorem wgSetDevice_rejected_badHeader :
    (wgSetDevice .generous badHeader ⟨wgSetup, 0⟩).err = some .EINVAL ∧
      Remains .generous badHeader wgSetup .EINVAL
        (wgSetDevice .generous badHeader ⟨wgSetup, 0⟩).state.dev :=
  wgSetDevice_rejected .generous badHeader ⟨wgSetup, 0⟩ .EINVAL (by decide +kernel)

end AmneziaWg

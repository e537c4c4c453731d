import AmneziaWg.Lib.Linux
import AmneziaWg.Lib.Text
import Mathlib.Data.List.DropRight

/-!
# I-packet descriptors: tags

The tag parsers of `junk.c` and `jp_parse_tags`. A descriptor is free text with
tags `<key>` or `<key value>`; every tag is either a literal (`b`) or a modifier
that fills its bytes at send time.

Strings reach these functions through `kstrdup`, so their lengths fit an `int`.
`list_add` puts each new tag at the head: the tag list is in reverse order of
the descriptor. `TagsIn` gives the tags of a text in its own order, and
`jpParseTags_iff` says that `jp_parse_tags` finds exactly these.
-/

namespace AmneziaWg.Junk

open Linux

/-! ## Tags -/

/-- The modifier functions, by name. -/
inductive JpModifierFunc where
  | pktCounterModifier
  | unixTimeModifier
  | randomByteModifier
  | randomCharModifier
  | randomDigitModifier
  | imitateQuicModifier
  | imitateDnsModifier
  | imitateStunModifier
  | imitateSipModifier
  | qinitModifier
deriving DecidableEq, Repr

/-- `struct jp_tag` without its list link. -/
structure JpTag where
  pkt : Option Bytes
  func : Option JpModifierFunc
  pktSize : ℤ
  ctx : Option Bytes
deriving DecidableEq, Repr

/-- `sizeof(struct jp_tag)`. -/
def jpTagSize : ℕ := 48

/-- `QINIT_DATAGRAM_LEN`. -/
def qinitDatagramLen : ℕ := 1200

/-! ## The tag parsers

Each takes the text after the key, `none` for `NULL`. -/

/-- The loop of `parse_b_tag`, from the last pair to the first. After pair `i` is
read, the string is cut in front of it. -/
def parseBTagLoop : ℕ → Bytes → Bytes → Except Errno Bytes
  | 0, _, pkt => .ok pkt
  | i + 1, val, pkt =>
    match kstrtou8 16 (val.drop (i * 2)) with
    | .error _ => .error .EINVAL
    | .ok b => parseBTagLoop i (val.take (i * 2)) (b :: pkt)

def parseBTag (val : Option Bytes) : Routine JpTag :=
  match val with
  | none => Routine.fail .EINVAL
  | some val =>
    if val.take 2 ≠ [chr '0', chr 'x'] then Routine.fail .EINVAL
    else
      let val := val.drop 2
      let len := val.length
      if len = 0 ∨ len % 2 ≠ 0 then Routine.fail .EINVAL
      else do
        let len := len / 2
        Routine.kmalloc len
        let pkt ← Routine.ofExcept (parseBTagLoop len val [])
        Routine.kmalloc jpTagSize
        pure { pkt := some pkt, func := none, pktSize := len, ctx := none }

/-- `parse_c_tag` and `parse_t_tag`: no value, four bytes. -/
def parseWordTag (func : JpModifierFunc) (val : Option Bytes) : Routine JpTag :=
  match val with
  | some _ => Routine.fail .EINVAL
  | none => do
    Routine.kmalloc jpTagSize
    pure { pkt := none, func := some func, pktSize := 4, ctx := none }

def parseCTag : Option Bytes → Routine JpTag := parseWordTag .pktCounterModifier
def parseTTag : Option Bytes → Routine JpTag := parseWordTag .unixTimeModifier

/-- `parse_imitate_tag`: a decimal length. The random tags have the same body. -/
def parseImitateTag (func : JpModifierFunc) (val : Option Bytes) : Routine JpTag :=
  match val with
  | none => Routine.fail .EINVAL
  | some val =>
    match kstrtoint 10 val with
    | .error _ => Routine.fail .EINVAL
    | .ok len => do
      Routine.kmalloc jpTagSize
      pure { pkt := none, func := some func, pktSize := len, ctx := none }

def parseRTag : Option Bytes → Routine JpTag := parseImitateTag .randomByteModifier
def parseRcTag : Option Bytes → Routine JpTag := parseImitateTag .randomCharModifier
def parseRdTag : Option Bytes → Routine JpTag := parseImitateTag .randomDigitModifier

/-- The two trimming loops: leading, then trailing spaces. -/
def trimSpaces (val : Bytes) : Bytes :=
  (val.dropWhile (· = chr ' ')).rdropWhile (· = chr ' ')

def parseQinitTag (val : Option Bytes) : Routine JpTag :=
  match val with
  | none => Routine.fail .EINVAL
  | some val =>
    let val := trimSpaces val
    if val.length = 0 ∨ val.length > 255 then Routine.fail .EINVAL
    else do
      Routine.kmalloc jpTagSize
      Routine.kmalloc (val.length + 1)
      pure { pkt := none, func := some .qinitModifier, pktSize := qinitDatagramLen,
             ctx := some val }

/-! ## jp_parse_tags -/

/-- The body of the loop: dispatch on the key in front of the first space. -/
def parseTag (val : Bytes) : Routine JpTag :=
  let (key, val) := strsep (chr ' ') (some val)
  if key = some [chr 'b'] then parseBTag val
  else if key = some [chr 'c'] then parseCTag val
  else if key = some [chr 't'] then parseTTag val
  else if key = some [chr 'r'] then parseRTag val
  else if key = some [chr 'r', chr 'c'] then parseRcTag val
  else if key = some [chr 'r', chr 'd'] then parseRdTag val
  else if key = some [chr 'q'] then parseImitateTag .imitateQuicModifier val
  else if key = some [chr 'd', chr 'n', chr 's'] then parseImitateTag .imitateDnsModifier val
  else if key = some [chr 's', chr 't', chr 'u', chr 'n'] then
    parseImitateTag .imitateStunModifier val
  else if key = some [chr 's', chr 'i', chr 'p'] then parseImitateTag .imitateSipModifier val
  else if key = some [chr 'q', chr 'i', chr 'n', chr 'i', chr 't'] then parseQinitTag val
  else Routine.fail .EINVAL

/-- The loop of `jp_parse_tags`. Each round that finds a tag consumes its `<`, so
`fuel` beyond the length of the text is never used up (`jpParseTagsLoop_fuel`). -/
def jpParseTagsLoop : ℕ → Option Bytes → List JpTag → Routine (List JpTag)
  | 0, _, _ => Routine.fail .EINVAL
  | fuel + 1, str, head =>
    let (_, str) := strsep (chr '<') str
    let (val, str) := strsep (chr '>') str
    match val with
    | none => pure head
    | some val => do
      let tag ← parseTag (trimSpaces val)
      jpParseTagsLoop fuel str (tag :: head)

def jpParseTags (str : Bytes) : Routine (List JpTag) :=
  jpParseTagsLoop (str.length + 1) (some str) []

/-! ## What a parsed tag can be -/

/-- The three shapes of a tag: a literal with its bytes, a modifier with the
length from the text (any `int`, negative ones included), the `qinit` datagram. -/
inductive JpTag.Wf : JpTag → Prop
  | literal (pkt : Bytes) (hpos : 0 < pkt.length) (hint : pkt.length < 2 ^ 31) :
      Wf ⟨some pkt, none, pkt.length, none⟩
  | modifier (func : JpModifierFunc) (hfunc : func ≠ .qinitModifier) (len : ℤ)
      (hlo : -2 ^ 31 ≤ len) (hhi : len < 2 ^ 31) : Wf ⟨none, some func, len, none⟩
  | qinit (ctx : Bytes) (hctx : ctx.length ≤ 255) :
      Wf ⟨none, some .qinitModifier, qinitDatagramLen, some ctx⟩

variable {val : Bytes}

theorem parseBTagLoop_length {n : ℕ} {pkt r : Bytes} (h : parseBTagLoop n val pkt = .ok r) :
    r.length = n + pkt.length := by
  induction n generalizing val pkt with
  | zero =>
    have hr : pkt = r := by simpa [parseBTagLoop] using h
    simp [hr]
  | succ n ih =>
    rw [parseBTagLoop] at h
    split at h
    · cases h
    · next b _ =>
      have := ih h
      rw [this, List.length_cons]
      omega

theorem parseBTag_wf (val : Option Bytes) : (parseBTag val).Ensures JpTag.Wf := by
  unfold parseBTag
  cases val with
  | none => exact .fail
  | some val =>
    refine .ite (fun _ => .fail) fun _ => .ite (fun _ => .fail) fun hlen => ?_
    refine .bind (.kmalloc _) fun _ hbound => ?_
    refine .bind .ofExcept fun pkt hloop => ?_
    refine .bind (.kmalloc _) fun _ _ => .pure ?_
    have hpkt := parseBTagLoop_length hloop
    rw [List.length_nil, Nat.add_zero] at hpkt
    rw [← hpkt]
    exact .literal pkt (by omega) (by omega)

theorem parseWordTag_wf {func : JpModifierFunc} (hfunc : func ≠ .qinitModifier)
    (val : Option Bytes) : (parseWordTag func val).Ensures JpTag.Wf := by
  unfold parseWordTag
  cases val with
  | some val => exact .fail
  | none =>
    refine .bind (.kmalloc _) fun _ _ => .pure ?_
    exact .modifier func hfunc 4 (by decide) (by decide)

theorem parseImitateTag_wf {func : JpModifierFunc} (hfunc : func ≠ .qinitModifier)
    (val : Option Bytes) : (parseImitateTag func val).Ensures JpTag.Wf := by
  unfold parseImitateTag
  cases val with
  | none => exact .fail
  | some val =>
    cases hlen : kstrtoint 10 val with
    | error e =>
      simp only [hlen]
      exact .fail
    | ok len =>
      simp only [hlen]
      refine .bind (.kmalloc _) fun _ _ => .pure ?_
      rcases kstrtoint_range hlen with ⟨hlo, hhi⟩
      exact .modifier func hfunc len hlo hhi

theorem parseQinitTag_wf (val : Option Bytes) : (parseQinitTag val).Ensures JpTag.Wf := by
  unfold parseQinitTag
  cases val with
  | none => exact .fail
  | some val =>
    refine .ite (fun _ => .fail) fun hlen => ?_
    refine .bind (.kmalloc _) fun _ _ => .bind (.kmalloc _) fun _ _ => .pure ?_
    exact .qinit _ (by omega)

/-- What a key can lead to: one of four parsers, or none. -/
inductive ParsedBy (val : Option Bytes) : Routine JpTag → Prop
  | literal : ParsedBy val (parseBTag val)
  | word (func : JpModifierFunc) (hfunc : func ≠ .qinitModifier) :
      ParsedBy val (parseWordTag func val)
  | imitate (func : JpModifierFunc) (hfunc : func ≠ .qinitModifier) :
      ParsedBy val (parseImitateTag func val)
  | qinit : ParsedBy val (parseQinitTag val)
  | unknown : ParsedBy val (Routine.fail .EINVAL)

theorem parseTag_parsedBy (val : Bytes) :
    ParsedBy (strsep (chr ' ') (some val)).2 (parseTag val) := by
  rw [parseTag]
  rcases strsep (chr ' ') (some val) with ⟨key, val'⟩
  dsimp only
  -- one branch per key, in the order of the source
  repeat' refine iteInduction (fun _ => ?_) fun _ => ?_
  · exact .literal
  · exact .word _ (by decide)
  · exact .word _ (by decide)
  iterate 7 exact .imitate _ (by decide)
  · exact .qinit
  · exact .unknown

theorem parseTag_wf (val : Bytes) : (parseTag val).Ensures JpTag.Wf := by
  have hparsed := parseTag_parsedBy val
  generalize parseTag val = r at hparsed ⊢
  cases hparsed with
  | literal => exact parseBTag_wf _
  | word func hfunc => exact parseWordTag_wf hfunc _
  | imitate func hfunc => exact parseImitateTag_wf hfunc _
  | qinit => exact parseQinitTag_wf _
  | unknown => exact .fail

theorem jpParseTagsLoop_wf {head : List JpTag} (hhead : ∀ t ∈ head, t.Wf) (fuel : ℕ)
    (str : Option Bytes) : (jpParseTagsLoop fuel str head).Ensures fun tags => ∀ t ∈ tags, t.Wf := by
  induction fuel generalizing str head with
  | zero => exact .fail
  | succ fuel ih =>
    rw [jpParseTagsLoop]
    rcases strsep (chr '<') str with ⟨tok, str₁⟩
    dsimp only
    rcases strsep (chr '>') str₁ with ⟨val, str₂⟩
    cases val with
    | none => exact .pure hhead
    | some val =>
      refine .bind (parseTag_wf (trimSpaces val)) fun tag htag => ih ?_ str₂
      intro t ht
      rcases List.mem_cons.mp ht with rfl | ht
      · exact htag
      · exact hhead t ht

theorem jpParseTags_wf (str : Bytes) : (jpParseTags str).Ensures fun tags => ∀ t ∈ tags, t.Wf :=
  jpParseTagsLoop_wf (by simp) _ _

/-! ## The tags of a text -/

/-- A text has these tags, in the order in which they stand in it. What stands in front of
a `<` is skipped, and the end of the text closes its last tag. -/
inductive TagsIn : Bytes → List JpTag → Prop
  | untagged {s : Bytes} (hs : chr '<' ∉ s) : TagsIn s []
  | closed {pre text rest : Bytes} {tag : JpTag} {tags : List JpTag} (hpre : chr '<' ∉ pre)
      (htext : chr '>' ∉ text) (htag : (parseTag (trimSpaces text)).result = .ok tag)
      (hrest : TagsIn rest tags) :
      TagsIn (pre ++ chr '<' :: (text ++ chr '>' :: rest)) (tag :: tags)
  | last {pre text : Bytes} {tag : JpTag} (hpre : chr '<' ∉ pre) (htext : chr '>' ∉ text)
      (htag : (parseTag (trimSpaces text)).result = .ok tag) :
      TagsIn (pre ++ chr '<' :: text) [tag]

/-- The result of a sequence whose first routine succeeds. -/
theorem bind_result {α β : Type} {x : Routine α} {a : α} (h : x.result = .ok a)
    (f : α → Routine β) : (x >>= f).result = (f a).result := by
  rw [Routine.bind_of_ok h]

/-- A sequence that succeeds has a first routine that succeeds. -/
theorem exists_of_bind_result {α β : Type} {x : Routine α} {f : α → Routine β} {b : β}
    (h : (x >>= f).result = .ok b) : ∃ a, x.result = .ok a ∧ (f a).result = .ok b := by
  cases hx : x.result with
  | error e =>
    rw [Routine.bind_error hx] at h
    cases h
  | ok a =>
    rw [bind_result hx] at h
    exact ⟨a, rfl, h⟩

variable {s : Bytes} {tags : List JpTag}

/-- The loop reads the tags of the text, and leaves them in reverse order. -/
theorem TagsIn.parsed (h : TagsIn s tags) {fuel : ℕ} (hfuel : s.length < fuel) (head : List JpTag) :
    (jpParseTagsLoop fuel (some s) head).result = .ok (tags.reverse ++ head) := by
  induction h generalizing fuel head with
  | untagged hs =>
    obtain ⟨fuel, rfl⟩ : ∃ k, fuel = k + 1 := ⟨fuel - 1, by omega⟩
    -- no further bracket: the text is used up
    rw [jpParseTagsLoop, strsep_all hs]
    rfl
  | @closed pre text rest tag tags hpre htext htag hrest ih =>
    obtain ⟨fuel, rfl⟩ : ∃ k, fuel = k + 1 := ⟨fuel - 1, by omega⟩
    simp only [List.length_append, List.length_cons] at hfuel
    rw [jpParseTagsLoop, strsep_append hpre]
    dsimp only
    rw [strsep_append htext]
    dsimp only
    rw [bind_result htag, ih (by omega), List.reverse_cons, List.append_assoc]
    rfl
  | @last pre text tag hpre htext htag =>
    -- one more round, which finds `NULL`
    simp only [List.length_append, List.length_cons] at hfuel
    obtain ⟨fuel, rfl⟩ : ∃ k, fuel = k + 2 := ⟨fuel - 2, by omega⟩
    rw [jpParseTagsLoop, strsep_append hpre]
    dsimp only
    rw [strsep_all htext]
    dsimp only
    rw [bind_result htag]
    rfl

/-- What the loop adds in front of `head` are the tags of the text. -/
theorem tagsIn_of_jpParseTagsLoop {fuel : ℕ} {head : List JpTag}
    (h : (jpParseTagsLoop fuel (some s) head).result = .ok tags) :
    ∃ new, tags = new.reverse ++ head ∧ TagsIn s new := by
  induction fuel generalizing s head with
  | zero => cases h
  | succ fuel ih =>
    rw [jpParseTagsLoop] at h
    by_cases hopen : chr '<' ∈ s
    · rcases List.eq_append_cons_of_mem hopen with ⟨pre, s', rfl, hpre⟩
      rw [strsep_append hpre] at h
      dsimp only at h
      by_cases hclose : chr '>' ∈ s'
      · rcases List.eq_append_cons_of_mem hclose with ⟨text, rest, rfl, htext⟩
        rw [strsep_append htext] at h
        rcases exists_of_bind_result h with ⟨tag, htag, hloop⟩
        rcases ih hloop with ⟨new, rfl, hnew⟩
        refine ⟨tag :: new, ?_, .closed hpre htext htag hnew⟩
        rw [List.reverse_cons, List.append_assoc]
        rfl
      · rw [strsep_all hclose] at h
        rcases exists_of_bind_result h with ⟨tag, htag, hloop⟩
        -- the next round finds `NULL`
        cases fuel with
        | zero => cases hloop
        | succ fuel =>
          cases hloop
          exact ⟨[tag], rfl, .last hpre hclose htag⟩
    · rw [strsep_all hopen] at h
      cases h
      exact ⟨[], rfl, .untagged hopen⟩

/-- `jp_parse_tags` succeeds with the tags of the text, the last one first. -/
theorem jpParseTags_iff : (jpParseTags s).result = .ok tags ↔ TagsIn s tags.reverse := by
  constructor
  · intro h
    rcases tagsIn_of_jpParseTagsLoop h with ⟨new, rfl, hnew⟩
    rw [List.append_nil, List.reverse_reverse]
    exact hnew
  · intro h
    have hloop := h.parsed (Nat.lt_succ_self s.length) []
    rw [List.append_nil, List.reverse_reverse] at hloop
    exact hloop

/-- A text has its tags in one way. -/
theorem TagsIn.unique {tags' : List JpTag} (h : TagsIn s tags) (h' : TagsIn s tags') :
    tags = tags' := by
  rw [← List.reverse_reverse tags] at h
  rw [← List.reverse_reverse tags'] at h'
  have heq := (jpParseTags_iff.mpr h).symm.trans (jpParseTags_iff.mpr h')
  exact List.reverse_injective (Except.ok.inj heq)

/-! ## Text lengths and fuel -/

/-- The length of the text still to read, `0` for `NULL`. -/
def textLength : Option Bytes → ℕ
  | none => 0
  | some s => s.length

variable {delim : U8} {tok : Option Bytes}

/-- What `strsep` leaves is shorter than what it got. -/
theorem strsep_rest_length {rest : Bytes} (h : strsep delim (some s) = (tok, some rest)) :
    rest.length < s.length := by
  unfold strsep at h
  have hle : (s.dropWhile (· ≠ delim)).length ≤ s.length := List.length_dropWhile_le _ _
  dsimp only at h
  split at h
  · cases h
  · next c r hd =>
    cases h
    rw [hd, List.length_cons] at hle
    omega

variable {str : Option Bytes}

theorem strsep_token_length {rest : Option Bytes} {tok : Bytes}
    (h : strsep delim str = (some tok, rest)) : tok.length ≤ textLength str := by
  cases str with
  | none => cases h
  | some s =>
    have hle : (s.takeWhile (· ≠ delim)).length ≤ s.length := (List.takeWhile_sublist _).length_le
    unfold strsep at h
    dsimp only at h
    split at h <;> cases h <;> exact hle

theorem strsep_length_le {rest : Option Bytes} (h : strsep delim str = (tok, rest)) :
    textLength rest ≤ textLength str := by
  cases rest with
  | none => exact Nat.zero_le _
  | some r =>
    cases str with
    | none => cases h
    | some s => exact Nat.le_of_lt (strsep_rest_length h)

theorem trimSpaces_length (val : Bytes) : (trimSpaces val).length ≤ val.length := by
  rw [trimSpaces, List.rdropWhile, List.length_reverse]
  refine le_trans (List.length_dropWhile_le _ _) ?_
  rw [List.length_reverse]
  exact List.length_dropWhile_le _ _

/-- The two calls of a round together leave less text than there was. -/
theorem strsep_twice_length {d d' : U8} {str₁ str₂ : Option Bytes} (h₁ : strsep d str = (tok, str₁))
    (h₂ : strsep d' str₁ = (some val, str₂)) : textLength str₂ < textLength str := by
  cases str with
  | none =>
    cases h₁
    cases h₂
  | some s =>
    cases str₁ with
    | none => cases h₂
    | some r =>
      have hr := strsep_rest_length h₁
      cases str₂ with
      | none => exact Nat.zero_lt_of_lt hr
      | some r' =>
        have hr' := strsep_rest_length h₂
        show r'.length < s.length
        omega

/-- The loop gives the same result for all fuel beyond the length of the text. -/
theorem jpParseTagsLoop_fuel {n m : ℕ} (hn : textLength str < n) (hm : textLength str < m)
    (head : List JpTag) : jpParseTagsLoop n str head = jpParseTagsLoop m str head := by
  induction n generalizing m str head with
  | zero => omega
  | succ n ih =>
    obtain ⟨m, rfl⟩ : ∃ k, m = k + 1 := ⟨m - 1, by omega⟩
    rw [jpParseTagsLoop, jpParseTagsLoop]
    rcases h₁ : strsep (chr '<') str with ⟨tok, str₁⟩
    dsimp only
    rcases h₂ : strsep (chr '>') str₁ with ⟨val, str₂⟩
    cases val with
    | none => rfl
    | some val =>
      have hlt := strsep_twice_length h₁ h₂
      have hloop : ∀ tag : JpTag,
          jpParseTagsLoop n str₂ (tag :: head) = jpParseTagsLoop m str₂ (tag :: head) :=
        fun tag => ih (by omega) (by omega) (tag :: head)
      simp only [hloop]

/-! ## Requests

No parser asks for more memory than its text is long, or than a fixed small size. -/

section Requests

variable {B : ℕ} (hB : 256 ≤ B)
include hB

theorem parseBTag_requests {val : Option Bytes} (hval : textLength val ≤ B) :
    (parseBTag val).Requests (· ≤ B) := by
  unfold parseBTag
  cases val with
  | none => exact .nil
  | some val =>
    refine .ite (fun _ => .nil) fun _ => .ite (fun _ => .nil) fun _ => ?_
    have hlen : (val.drop 2).length ≤ val.length := by
      rw [List.length_drop]
      omega
    have hhalf : (val.drop 2).length / 2 ≤ B := by
      have : val.length ≤ B := hval
      omega
    refine .bind (.kmalloc hhalf) fun _ => .bind .nil fun _ => ?_
    exact .bind (.kmalloc (le_trans (by decide) hB)) fun _ => .nil

theorem parseWordTag_requests (func : JpModifierFunc) (val : Option Bytes) :
    (parseWordTag func val).Requests (· ≤ B) := by
  unfold parseWordTag
  cases val with
  | some val => exact .nil
  | none => exact .bind (.kmalloc (le_trans (by decide) hB)) fun _ => .nil

theorem parseImitateTag_requests (func : JpModifierFunc) (val : Option Bytes) :
    (parseImitateTag func val).Requests (· ≤ B) := by
  unfold parseImitateTag
  cases val with
  | none => exact .nil
  | some val =>
    dsimp only
    cases kstrtoint 10 val with
    | error e => exact .nil
    | ok len => exact .bind (.kmalloc (le_trans (by decide) hB)) fun _ => .nil

theorem parseQinitTag_requests (val : Option Bytes) : (parseQinitTag val).Requests (· ≤ B) := by
  unfold parseQinitTag
  cases val with
  | none => exact .nil
  | some val =>
    refine .ite (fun _ => .nil) fun hlen => ?_
    refine .bind (.kmalloc (le_trans (by decide) hB)) fun _ => ?_
    exact .bind (.kmalloc (by omega)) fun _ => .nil

theorem parseTag_requests (hval : val.length ≤ B) : (parseTag val).Requests (· ≤ B) := by
  have hsep : strsep (chr ' ') (some val) = (_, (strsep (chr ' ') (some val)).2) := rfl
  have hval' := le_trans (strsep_length_le hsep) hval
  have hparsed := parseTag_parsedBy val
  generalize parseTag val = r at hparsed ⊢
  cases hparsed with
  | literal => exact parseBTag_requests hB hval'
  | word func => exact parseWordTag_requests hB func _
  | imitate func => exact parseImitateTag_requests hB func _
  | qinit => exact parseQinitTag_requests hB _
  | unknown => exact .nil

theorem jpParseTagsLoop_requests (fuel : ℕ) (hstr : textLength str ≤ B) (head : List JpTag) :
    (jpParseTagsLoop fuel str head).Requests (· ≤ B) := by
  induction fuel generalizing str head with
  | zero => exact .nil
  | succ fuel ih =>
    rw [jpParseTagsLoop]
    rcases h₁ : strsep (chr '<') str with ⟨tok, str₁⟩
    dsimp only
    rcases h₂ : strsep (chr '>') str₁ with ⟨val, str₂⟩
    have hstr₁ : textLength str₁ ≤ B := le_trans (strsep_length_le h₁) hstr
    have hstr₂ : textLength str₂ ≤ B := le_trans (strsep_length_le h₂) hstr₁
    cases val with
    | none => exact .nil
    | some val =>
      have hval : (trimSpaces val).length ≤ B :=
        le_trans (trimSpaces_length val) (le_trans (strsep_token_length h₂) hstr₁)
      exact .bind (parseTag_requests hB hval) fun tag => ih hstr₂ (tag :: head)

theorem jpParseTags_requests {str : Bytes} (hstr : str.length ≤ B) :
    (jpParseTags str).Requests (· ≤ B) :=
  have htext : textLength (some str) ≤ B := hstr
  jpParseTagsLoop_requests hB _ htext []

end Requests

end AmneziaWg.Junk

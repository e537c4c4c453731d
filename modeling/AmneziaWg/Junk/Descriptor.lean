import AmneziaWg.Junk.Hex
import AmneziaWg.Junk.Spec
import AmneziaWg.Lib.Text

/-!
# I-packet descriptors: what a well-formed one compiles to

The abstract side of `jp_spec_setup`. A descriptor is a list of tags with spaces
just inside the brackets and any text between them; its packet is the bytes of
the tags one after the other, and each tag that is filled at send time gives one
modifier at its place.

* **Abstract layer**: `Tag` (well formed by construction), `render`, `packet`,
  `modifiers`.
* **Parsing**: `parseTag_text`, `tagsIn_render`.
* **Layout**: `packetOf_compile` and `along_compile`, which take the layout of the
  parsed tags back to that of the abstract ones.
* **Result**: `jpSpecSetup_render`.
-/

namespace AmneziaWg.Junk

open Linux

/-! ## Abstract layer -/

/-- The tags without a value. -/
inductive WordKey where
  | c
  | t
deriving DecidableEq, Repr

/-- The tags with a length. -/
inductive SizedKey where
  | r
  | rc
  | rd
  | q
  | dns
  | stun
  | sip
deriving DecidableEq, Repr

def WordKey.text : WordKey → Bytes
  | .c => ascii "c"
  | .t => ascii "t"

def WordKey.func : WordKey → JpModifierFunc
  | .c => .pktCounterModifier
  | .t => .unixTimeModifier

def SizedKey.text : SizedKey → Bytes
  | .r => ascii "r"
  | .rc => ascii "rc"
  | .rd => ascii "rd"
  | .q => ascii "q"
  | .dns => ascii "dns"
  | .stun => ascii "stun"
  | .sip => ascii "sip"

def SizedKey.func : SizedKey → JpModifierFunc
  | .r => .randomByteModifier
  | .rc => .randomCharModifier
  | .rd => .randomDigitModifier
  | .q => .imitateQuicModifier
  | .dns => .imitateDnsModifier
  | .stun => .imitateStunModifier
  | .sip => .imitateSipModifier

/-- A decimal length. -/
structure Length where
  digits : List ℕ
  decimal : Decimal digits
  le : digitsValue 10 digits ≤ 65535

def Length.value (len : Length) : ℕ := digitsValue 10 len.digits

/-- A text that does not start or end with a space. -/
structure Trimmed (s : Bytes) : Prop where
  first : s.head? ≠ some (chr ' ')
  last : s.getLast? ≠ some (chr ' ')

/-- The domain of a `qinit` tag. -/
structure Domain where
  text : Bytes
  pos : 0 < text.length
  le : text.length ≤ 255
  trimmed : Trimmed text
  no_open : chr '<' ∉ text
  no_close : chr '>' ∉ text

/-- A well-formed tag. -/
inductive Tag where
  | b (hex : Bytes) (h : HexText hex)
  | word (key : WordKey)
  | sized (key : SizedKey) (len : Length)
  | qinit (domain : Domain)

namespace Tag

/-- The text between the brackets, without the spaces. -/
def text : Tag → Bytes
  | b hex _ => ascii "b" ++ chr ' ' :: (ascii "0x" ++ hex)
  | word key => key.text
  | sized key len => key.text ++ chr ' ' :: numeral len.digits
  | qinit domain => ascii "qinit" ++ chr ' ' :: domain.text

/-- The bytes that the tag takes in the packet: a literal, or room for its modifier. -/
def bytes : Tag → Bytes
  | b hex _ => hexBytes hex
  | word _ => List.replicate 4 0
  | sized _ len => List.replicate len.value 0
  | qinit _ => List.replicate qinitDatagramLen 0

def size (tag : Tag) : ℕ := tag.bytes.length

/-- The function and the context of the tag's modifier, if it has one. -/
def modifier : Tag → Option (JpModifierFunc × Option Bytes)
  | b _ _ => none
  | word key => some (key.func, none)
  | sized key _ => some (key.func, none)
  | qinit domain => some (.qinitModifier, some domain.text)

def isQinit : Tag → Bool
  | qinit _ => true
  | _ => false

end Tag

/-- The packet of a list of tags. -/
def packet (tags : List Tag) : Bytes := tags.flatMap Tag.bytes

/-- The modifiers of a list of tags whose first one starts at `off`. -/
def modifiers : ℕ → List Tag → List JpModifier
  | _, [] => []
  | off, tag :: tags =>
    match tag.modifier with
    | none => modifiers (off + tag.size) tags
    | some (func, ctx) => ⟨func, off, tag.size, ctx⟩ :: modifiers (off + tag.size) tags

/-- A tag as it stands in a descriptor: the text in front of it, and the spaces inside the
brackets. -/
structure Piece where
  gap : Bytes
  lead : ℕ
  tag : Tag
  trail : ℕ
  no_open : chr '<' ∉ gap

/-- The text inside the brackets. -/
def Piece.inner (p : Piece) : Bytes :=
  List.replicate p.lead (chr ' ') ++ (p.tag.text ++ List.replicate p.trail (chr ' '))

/-- The descriptor of a list of tags, with some text behind the last one. -/
def render : List Piece → Bytes → Bytes
  | [], tail => tail
  | p :: ps, tail => p.gap ++ chr '<' :: (p.inner ++ chr '>' :: render ps tail)

/-! ## Parsing one tag -/

/-- What the parser makes of a tag. -/
def Tag.compile : Tag → JpTag
  | .b hex _ => literalTag (hexBytes hex)
  | .word key => ⟨none, some key.func, 4, none⟩
  | .sized key len => ⟨none, some key.func, len.value, none⟩
  | .qinit domain => ⟨none, some .qinitModifier, qinitDatagramLen, some domain.text⟩

theorem dropWhile_spaces (n : ℕ) (s : Bytes) :
    (List.replicate n (chr ' ') ++ s).dropWhile (· = chr ' ') = s.dropWhile (· = chr ' ') := by
  induction n with
  | zero => rfl
  | succ n ih =>
    have hspace : decide (chr ' ' = chr ' ') = true := decide_eq_true rfl
    rw [List.replicate_succ, List.cons_append, List.dropWhile_cons, if_pos hspace]
    exact ih

theorem dropWhile_of_head {s : Bytes} (h : s.head? ≠ some (chr ' ')) :
    s.dropWhile (· = chr ' ') = s := by
  cases s with
  | nil => rfl
  | cons c s =>
    have hc : ¬ decide (c = chr ' ') = true := by
      intro heq
      exact h (congrArg some (of_decide_eq_true heq))
    exact List.dropWhile_cons_of_neg hc

/-- The spaces around a text that has none at its ends are trimmed. -/
theorem trimSpaces_pad {s : Bytes} (h : Trimmed s) (n m : ℕ) :
    trimSpaces (List.replicate n (chr ' ') ++ (s ++ List.replicate m (chr ' '))) = s := by
  unfold trimSpaces
  rw [dropWhile_spaces]
  cases s with
  | nil =>
    -- only spaces
    have hm := dropWhile_spaces m []
    rw [List.append_nil] at hm
    rw [List.nil_append, hm]
    rfl
  | cons c s =>
    have hfirst : (c :: s ++ List.replicate m (chr ' ')).head? ≠ some (chr ' ') := h.first
    rw [dropWhile_of_head hfirst, List.rdropWhile, List.reverse_append, List.reverse_replicate,
      dropWhile_spaces, dropWhile_of_head, List.reverse_reverse]
    rw [List.head?_reverse]
    exact h.last

theorem trimSpaces_self {s : Bytes} (h : Trimmed s) : trimSpaces s = s := by
  have hpad := trimSpaces_pad h 0 0
  rwa [List.replicate_zero, List.append_nil] at hpad

theorem parseImitateTag_result (func : JpModifierFunc) (len : Length) :
    (parseImitateTag func (some (numeral len.digits))).result =
      .ok ⟨none, some func, len.value, none⟩ := by
  have hmax := len.le
  unfold parseImitateTag
  dsimp only
  rw [kstrtoint_numeral len.decimal (by omega)]
  rfl

theorem parseQinitTag_result (domain : Domain) :
    (parseQinitTag (some domain.text)).result =
      .ok ⟨none, some .qinitModifier, qinitDatagramLen, some domain.text⟩ := by
  have hpos := domain.pos
  have hle := domain.le
  unfold parseQinitTag
  dsimp only
  rw [trimSpaces_self domain.trimmed, if_neg (by omega)]
  rfl

theorem parseBTag_hex {hex : Bytes} (h : HexText hex) :
    (parseBTag (some (ascii "0x" ++ hex))).result = .ok (literalTag (hexBytes hex)) :=
  (parseBTag_ok_iff _ _).mpr ⟨hex, _, rfl, h.nonempty, readPairs_hex h.even h.digits, rfl⟩

/-- Every well-formed tag is parsed to what it stands for. -/
theorem parseTag_text (tag : Tag) : (parseTag tag.text).result = .ok tag.compile := by
  cases tag with
  | b hex h =>
    rw [parseTag, Tag.text, strsep_append (by decide)]
    exact parseBTag_hex h
  | word key => cases key <;> rfl
  | sized key len =>
    rw [parseTag, Tag.text, strsep_append (by cases key <;> decide)]
    cases key <;> exact parseImitateTag_result _ len
  | qinit domain =>
    rw [parseTag, Tag.text, strsep_append (by decide)]
    exact parseQinitTag_result domain

/-! ## Parsing a descriptor -/

/-- A closing bracket would end the tag early. -/
theorem close_not_mem_text (tag : Tag) : chr '>' ∉ tag.text := by
  cases tag with
  | b hex h =>
    rw [Tag.text, List.mem_append, List.mem_cons, List.mem_append]
    rintro (hmem | hmem | hmem | hmem)
    · exact absurd hmem (by decide)
    · exact absurd hmem (by decide)
    · exact absurd hmem (by decide)
    · exact absurd (h.digits _ hmem) (by decide)
  | word key => cases key <;> decide
  | sized key len =>
    rw [Tag.text, List.mem_append, List.mem_cons]
    rintro (hmem | hmem | hmem)
    · revert hmem
      cases key <;> decide
    · exact absurd hmem (by decide)
    · exact absurd (mem_numeral len.decimal hmem).2 (by decide)
  | qinit domain =>
    rw [Tag.text, List.mem_append, List.mem_cons]
    rintro (hmem | hmem | hmem)
    · exact absurd hmem (by decide)
    · exact absurd hmem (by decide)
    · exact domain.no_close hmem

/-- A key and a value have no space at their ends if the key has none in front and the
value none behind. -/
theorem Trimmed.of_value {key val : Bytes} (hkey : key.head? ≠ some (chr ' ')) (hne : key ≠ [])
    (hval : val ≠ []) (hlast : chr ' ' ∈ val → val.getLast? ≠ some (chr ' ')) :
    Trimmed (key ++ chr ' ' :: val) := by
  constructor
  · rw [List.head?_append_of_ne_nil _ hne]
    exact hkey
  · rw [List.getLast?_append_of_ne_nil _ (List.cons_ne_nil _ _), List.getLast?_cons_of_ne_nil hval]
    intro h
    exact hlast (List.mem_of_getLast? h) h

theorem trimmed_text (tag : Tag) : Trimmed tag.text := by
  cases tag with
  | b hex h =>
    refine Trimmed.of_value (by decide) (by decide) (List.cons_ne_nil _ _) ?_
    intro hmem
    rcases List.mem_append.mp hmem with hmem | hmem
    · exact absurd hmem (by decide)
    · exact absurd (h.digits _ hmem) (by decide)
  | word key => cases key <;> constructor <;> decide
  | sized key len =>
    refine Trimmed.of_value (by cases key <;> decide) (by cases key <;> decide) ?_ ?_
    · intro hnil
      exact len.decimal.nonempty (List.map_eq_nil_iff.mp hnil)
    · intro hmem
      exact absurd (mem_numeral len.decimal hmem).1 (by decide)
  | qinit domain =>
    refine Trimmed.of_value (by decide) (by decide) ?_ fun _ => domain.trimmed.last
    intro hnil
    have hpos := domain.pos
    rw [hnil] at hpos
    exact absurd hpos (Nat.lt_irrefl 0)

theorem close_not_mem_inner (p : Piece) : chr '>' ∉ p.inner := by
  have hspace : ∀ n, chr '>' ∉ List.replicate n (chr ' ') := by
    intro n hmem
    exact absurd (List.eq_of_mem_replicate hmem) (by decide)
  rw [Piece.inner, List.mem_append, List.mem_append]
  rintro (hmem | hmem | hmem)
  · exact hspace _ hmem
  · exact close_not_mem_text p.tag hmem
  · exact hspace _ hmem

/-- The tags of a descriptor are those it was written from. -/
theorem tagsIn_render (ps : List Piece) {tail : Bytes} (htail : chr '<' ∉ tail) :
    TagsIn (render ps tail) (ps.map fun p => p.tag.compile) := by
  induction ps with
  | nil => exact .untagged htail
  | cons p ps ih =>
    refine .closed p.no_open (close_not_mem_inner p) ?_ ih
    rw [Piece.inner, trimSpaces_pad (trimmed_text p.tag)]
    exact parseTag_text p.tag

theorem length_le_render (ps : List Piece) (tail : Bytes) :
    ps.length ≤ (render ps tail).length := by
  induction ps with
  | nil => exact Nat.zero_le _
  | cons p ps ih =>
    simp only [render, List.length_append, List.length_cons]
    omega

/-- A descriptor of well-formed tags is parsed to these tags. -/
theorem jpParseTags_render (ps : List Piece) {tail : Bytes} (htail : chr '<' ∉ tail) :
    (jpParseTags (render ps tail)).result = .ok (ps.map fun p => p.tag.compile).reverse := by
  rw [jpParseTags_iff, List.reverse_reverse]
  exact tagsIn_render ps htail

/-! ## The layout -/

theorem compile_pktSize (tag : Tag) : tag.compile.pktSize = tag.size := by
  cases tag with
  | b hex h => rfl
  | word key => rfl
  | sized key len => exact congrArg Nat.cast List.length_replicate.symm
  | qinit domain => exact congrArg Nat.cast List.length_replicate.symm

theorem compile_bytes (tag : Tag) : tag.compile.bytes = tag.bytes := by
  cases tag <;> rfl

theorem packetOf_compile (tags : List Tag) : packetOf (tags.map Tag.compile) = packet tags := by
  rw [packetOf, List.flatMap_map]
  exact List.flatMap_congr fun tag _ => compile_bytes tag

theorem packet_cons (tag : Tag) (tags : List Tag) :
    packet (tag :: tags) = tag.bytes ++ packet tags := List.flatMap_cons

/-- The table entries of the parsed tags. -/
theorem along_compile (off : ℕ) (tags : List Tag) :
    along JpTag.modifierAt off (tags.map Tag.compile) = modifiers off tags := by
  induction tags generalizing off with
  | nil => rfl
  | cons tag tags ih =>
    have hsize := compile_pktSize tag
    have hrest : along JpTag.modifierAt (off + tag.compile.pktSize) (tags.map Tag.compile) =
        modifiers (off + tag.size) tags := by
      rw [hsize, ← Nat.cast_add]
      exact ih _
    rw [List.map_cons, along, hrest, modifiers]
    cases tag with
    | b hex h => rfl
    | word key => rfl
    | sized key len => exact congrArg (fun n => JpModifier.mk key.func off n none :: _) hsize
    | qinit domain =>
      exact congrArg (fun n => JpModifier.mk .qinitModifier off n (some domain.text) :: _) hsize

/-! ## The whole call -/

theorem foldl_countTag_nqinit {t : Totals} {tags : List JpTag}
    (h : ∀ tag ∈ tags, tag.func ≠ some .qinitModifier) :
    (tags.foldl countTag t).nqinit = t.nqinit := by
  induction tags generalizing t with
  | nil => rfl
  | cons tag tags ih =>
    rcases List.forall_mem_cons.mp h with ⟨htag, htags⟩
    rw [List.foldl_cons, ih htags]
    exact if_neg htag

theorem foldl_countTag_modsSize_le (t : Totals) (tags : List JpTag) :
    (tags.foldl countTag t).modsSize ≤ t.modsSize + tags.length := by
  induction tags generalizing t with
  | nil => exact Nat.le_refl _
  | cons tag tags ih =>
    have hstep : (countTag t tag).modsSize ≤ t.modsSize + 1 := by
      show (if tag.func.isSome then t.modsSize + 1 else t.modsSize) ≤ t.modsSize + 1
      split <;> omega
    have hrest := ih (countTag t tag)
    rw [List.foldl_cons, List.length_cons]
    omega

theorem func_compile {tag : Tag} (h : tag.isQinit = false) :
    tag.compile.func ≠ some .qinitModifier := by
  cases tag with
  | b hex hhex => exact fun heq => nomatch heq
  | word key => cases key <;> exact fun heq => nomatch heq
  | sized key len => cases key <;> exact fun heq => nomatch heq
  | qinit domain => cases h

theorem lengthSum_compile (tags : List Tag) :
    lengthSum (tags.map Tag.compile) = (packet tags).length := by
  induction tags with
  | nil => rfl
  | cons tag tags ih =>
    rw [packet_cons, List.length_append, List.map_cons]
    show tag.compile.pktSize + lengthSum (tags.map Tag.compile) = _
    rw [ih, compile_pktSize, Nat.cast_add]
    rfl

/-- The spec of a descriptor whose tags are all laid out. -/
theorem Laid.spec_eq {tags : List Tag} {desc : Option Bytes} {r : Setup}
    (h : Laid (tags.map Tag.compile) 0 r) (hdesc : r.spec.desc = desc) :
    r.spec = ⟨desc, some (packet tags), modifiers 0 tags, (packet tags).length⟩ := by
  have hpkt := h.pkt
  have hmods : r.spec.mods = modifiers 0 tags := h.mods.trans (along_compile 0 tags)
  have hlen := h.pktSize
  rw [packetOf_compile, List.replicate_zero, List.append_nil] at hpkt
  rw [lengthSum_compile] at hlen
  rw [← hdesc, ← hpkt, ← hmods, ← hlen]

/-- A `qinit` tag stands alone. -/
def QinitAlone (tags : List Tag) : Prop := ∀ tag ∈ tags, tag.isQinit = true → tags = [tag]

section Setup

variable {ps : List Piece} {tail : Bytes}

/-- The parsed tags pass the checks of `jp_spec_setup`. -/
theorem totals_render {tags : List Tag} (hqinit : QinitAlone tags)
    (hsize : (packet tags).length ≤ messageMaxSize) :
    ((totals (tags.map Tag.compile).reverse).nqinit = 0 ∨ tags.length = 1) ∧
      (totals (tags.map Tag.compile).reverse).pktSize = (packet tags).length := by
  constructor
  · by_cases h : ∃ tag ∈ tags, tag.isQinit = true
    · right
      rcases h with ⟨tag, htag, hq⟩
      rw [hqinit tag htag hq]
      rfl
    · left
      refine foldl_countTag_nqinit ?_
      intro t ht
      rcases List.mem_map.mp (List.mem_reverse.mp ht) with ⟨tag, htag, rfl⟩
      exact func_compile (Bool.eq_false_iff.mpr fun hq => h ⟨tag, htag, hq⟩)
  · rw [messageMaxSize] at hsize
    rw [totals_pktSize, lengthSum_reverse, lengthSum_compile]
    exact wrapInt_of_range (by omega) (by omega)

/-- What comes after parsing: a refused allocation, or the compiled packet. -/
theorem compileTags_render (mem : Kmalloc) (i : ℕ) (desc : Bytes) {tags : List Tag}
    (hwf : ∀ t ∈ (tags.map Tag.compile).reverse, t.Wf) (hqinit : QinitAlone tags)
    (hsize : (packet tags).length ≤ messageMaxSize) :
    (compileTags mem i desc (tags.map Tag.compile).reverse).err = some .ENOMEM ∨
      (compileTags mem i desc (tags.map Tag.compile).reverse).err = none ∧
        Laid (tags.map Tag.compile) 0 (compileTags mem i desc (tags.map Tag.compile).reverse) := by
  rcases totals_render hqinit hsize with ⟨hq, hpkt⟩
  have hntags : (totals (tags.map Tag.compile).reverse).ntags = tags.length := by
    rw [totals_ntags, List.length_reverse, List.length_map]
  have hmax : ¬ (totals (tags.map Tag.compile).reverse).pktSize > messageMaxSize := by
    rw [hpkt]
    omega
  have hnonneg : ∀ t ∈ tags.map Tag.compile, 0 ≤ t.pktSize := by
    intro t ht
    rcases List.mem_map.mp ht with ⟨tag, -, rfl⟩
    rw [compile_pktSize]
    exact Int.natCast_nonneg _
  have hfit : LengthsFit (tags.map Tag.compile).reverse := by
    refine ⟨fun t ht => hnonneg t (List.mem_reverse.mp ht), ?_⟩
    rw [lengthSum_reverse, lengthSum_compile]
    omega
  have hlaid := laid_walkStart desc hwf hfit (i + 2)
  rw [List.reverse_reverse] at hlaid
  unfold compileTags
  rw [if_neg (by rw [hntags]; omega), if_neg hmax, List.reverse_reverse]
  split
  · have hwalk := @layTags_laid mem _ _ _
      (fun t ht => ⟨hwf t (List.mem_reverse.mpr ht), hnonneg t ht⟩) hlaid rfl
    exact hwalk.symm.imp_left And.left
  · exact Or.inl rfl
  · exact Or.inl rfl

/-- A routine returns its result, or an allocation was refused. -/
theorem run_cases {α : Type} (x : Routine α) (mem : Kmalloc) (i : ℕ) :
    (∃ j, x.run mem i = (x.result, j)) ∨ ∃ j, x.run mem i = (.error .ENOMEM, j) := by
  unfold Routine.run
  rcases Routine.grantAll mem i x.requests with ⟨granted, j⟩
  cases granted with
  | true => exact Or.inl ⟨j, rfl⟩
  | false => exact Or.inr ⟨j, rfl⟩

theorem map_compile (ps : List Piece) :
    (ps.map fun p => p.tag.compile) = (ps.map (·.tag)).map Tag.compile := by
  rw [List.map_map]
  rfl

/-- On any allocator, a descriptor of well-formed tags is refused memory or compiled. -/
theorem jpSpecSetup_outcome (htail : chr '<' ∉ tail) {spec : JpSpec}
    (hdesc : spec.desc = some (render ps tail)) (hqinit : QinitAlone (ps.map (·.tag)))
    (hsize : (packet (ps.map (·.tag))).length ≤ messageMaxSize) (mem : Kmalloc) (i : ℕ) :
    (jpSpecSetup mem i spec).err = some .ENOMEM ∨
      (jpSpecSetup mem i spec).err = none ∧
        Laid ((ps.map (·.tag)).map Tag.compile) 0 (jpSpecSetup mem i spec) := by
  have hresult : (parseDesc (render ps tail)).result =
      .ok ((ps.map (·.tag)).map Tag.compile).reverse := by
    rw [← map_compile]
    exact jpParseTags_render ps htail
  unfold jpSpecSetup
  rw [hdesc]
  dsimp only
  rcases run_cases (parseDesc (render ps tail)) mem i with ⟨j, hrun⟩ | ⟨j, hrun⟩
  · rw [hresult] at hrun
    have hwf := ((parseDesc_ensures (render ps tail)).run hrun).2.2
    rw [hrun]
    exact compileTags_render mem j _ hwf hqinit hsize
  · rw [hrun]
    exact Or.inl rfl

/-- With memory for every request, a descriptor of well-formed tags compiles. -/
theorem compiles_render (htail : chr '<' ∉ tail) (hqinit : QinitAlone (ps.map (·.tag)))
    (hsize : (packet (ps.map (·.tag))).length ≤ messageMaxSize)
    (hlen : (render ps tail).length < 2 ^ 26) :
    Compiles (render ps tail) ((ps.map (·.tag)).map Tag.compile).reverse := by
  rcases totals_render hqinit hsize with ⟨hq, hpkt⟩
  rw [totals_pktSize] at hpkt
  constructor
  · rw [← map_compile]
    exact jpParseTags_render ps htail
  · omega
  · rw [List.length_reverse, List.length_map]
    exact hq
  · rw [hpkt]
    omega
  · rw [hpkt]
    omega
  · have hmods := foldl_countTag_modsSize_le {} ((ps.map (·.tag)).map Tag.compile).reverse
    have hps := length_le_render ps tail
    rw [List.length_reverse, List.length_map, List.length_map] at hmods
    rw [totals, jpModifierSize]
    have hzero : ({} : Totals).modsSize = 0 := rfl
    omega

end Setup

/-- The bytes of a tag stand at the sum of the sizes in front of it. -/
theorem packet_at (before : List Tag) (tag : Tag) (after : List Tag) :
    ((packet (before ++ tag :: after)).drop (before.map Tag.size).sum).take tag.size = tag.bytes := by
  have hsum : (before.map Tag.size).sum = (packet before).length := by
    rw [packet, List.length_flatMap]
    rfl
  have hsplit : packet (before ++ tag :: after) = packet before ++ (tag.bytes ++ packet after) := by
    rw [packet, List.flatMap_append, List.flatMap_cons]
    rfl
  rw [hsum, hsplit, List.drop_left, Tag.size, List.take_left]

/-- Every descriptor of well-formed tags within the limit: on any allocator the call runs out
of memory or succeeds, and with memory for every request it succeeds. A call that succeeds
leaves a packet of the total size, in which every literal stands at the sum of the sizes in
front of it, and one modifier for each other tag, in order and at its place. -/
theorem jpSpecSetup_render (ps : List Piece) (tail : Bytes) (htail : chr '<' ∉ tail)
    (hqinit : QinitAlone (ps.map (·.tag)))
    (hsize : ((ps.map (·.tag)).map Tag.size).sum ≤ messageMaxSize)
    (spec : JpSpec) (hdesc : spec.desc = some (render ps tail)) (mem : Kmalloc) (i : ℕ) :
    ((jpSpecSetup mem i spec).err = some .ENOMEM ∨
      (jpSpecSetup mem i spec).err = none ∧ ∃ pkt,
        (jpSpecSetup mem i spec).spec = ⟨some (render ps tail), some pkt,
          modifiers 0 (ps.map (·.tag)), ((ps.map (·.tag)).map Tag.size).sum⟩ ∧
        pkt.length = ((ps.map (·.tag)).map Tag.size).sum ∧
        ∀ before hex h after, ps.map (·.tag) = before ++ .b hex h :: after →
          (pkt.drop (before.map Tag.size).sum).take (hexBytes hex).length = hexBytes hex) ∧
    ((render ps tail).length < 2 ^ 26 → (jpSpecSetup .generous 0 spec).err = none) := by
  have hsum : ((ps.map (·.tag)).map Tag.size).sum = (packet (ps.map (·.tag))).length := by
    rw [packet, List.length_flatMap]
    rfl
  rw [hsum] at hsize ⊢
  constructor
  · rcases jpSpecSetup_outcome htail hdesc hqinit hsize mem i with herr | ⟨herr, hlaid⟩
    · exact Or.inl herr
    · refine Or.inr ⟨herr, packet (ps.map (·.tag)), ?_, rfl, ?_⟩
      · exact hlaid.spec_eq ((jpSpecSetup_desc mem i spec).trans hdesc)
      · intro before hex h after htags
        rw [htags]
        exact packet_at before (.b hex h) after
  · intro hlen
    have hcomp := compiles_render htail hqinit hsize hlen
    rcases jpSpecSetup_compiles hdesc hcomp with ⟨hwf, j, heq⟩
    rw [heq]
    exact layTags_generous_err (fun t ht => hwf t (List.mem_reverse.mp ht)) _ rfl

/-- `junk< b 0xf60a ><r 016>>`. -/
def literalAndRandom : List Piece :=
  [⟨ascii "junk", 1, .b (ascii "f60a") ⟨by decide, by decide, by decide⟩, 1, by decide⟩,
    ⟨[], 0, .sized .r ⟨[0, 1, 6], ⟨by decide, by decide⟩, by decide⟩, 0, by decide⟩]

theorem jpSpecSetup_render_literal :
    render literalAndRandom (ascii ">") = ascii "junk< b 0xf60a ><r 016>>" ∧
    (jpSpecSetup .generous 0 ⟨some (render literalAndRandom (ascii ">")), none, [], 0⟩).err = none ∧
    modifiers 0 (literalAndRandom.map (·.tag)) = [⟨.randomByteModifier, 2, 16, none⟩] := by
  have hqinit : QinitAlone (literalAndRandom.map (·.tag)) := by
    intro tag htag hq
    rcases List.mem_pair.mp htag with rfl | rfl <;> cases hq
  have h := jpSpecSetup_render literalAndRandom (ascii ">") (by decide) hqinit (by decide)
    ⟨some (render literalAndRandom (ascii ">")), none, [], 0⟩ rfl .generous 0
  exact ⟨by decide, h.2 (by decide), rfl⟩

end AmneziaWg.Junk

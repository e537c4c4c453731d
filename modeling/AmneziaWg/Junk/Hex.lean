import AmneziaWg.Junk.Tags

/-!
# I-packet descriptors: the literal tag

`parse_b_tag` reads its bytes with `kstrtou8`, one pair of characters at a time
and from the last pair to the first, cutting the string behind the next pair. So
every call sees exactly two characters; but it is a general number parser, which
also takes a plus sign in front of a digit and a newline behind it.

* **Pairs**: `pairByte`, what `kstrtou8` makes of two characters.
* **Loop**: `parseBTagLoop_eq`, the pairs read from the front.
* **Result**: `parseBTag_ok_iff`, what is accepted; `parseBTag_accepts_hex`, the texts on which
  that is not hexadecimal digits.
-/

namespace AmneziaWg.Junk

open Linux

/-! ## Hexadecimal texts -/

/-- The value of a hexadecimal digit. -/
def hexValue (c : U8) : Option ℕ :=
  if chr '0' ≤ c ∧ c ≤ chr '9' then some (c.toNat - (chr '0').toNat)
  else if chr 'a' ≤ c ∧ c ≤ chr 'f' then some (c.toNat - (chr 'a').toNat + 10)
  else if chr 'A' ≤ c ∧ c ≤ chr 'F' then some (c.toNat - (chr 'A').toNat + 10)
  else none

/-- A positive even number of hexadecimal digits. -/
structure HexText (hex : Bytes) : Prop where
  nonempty : hex ≠ []
  even : hex.length % 2 = 0
  digits : ∀ c ∈ hex, (hexValue c).isSome

/-- The bytes that consecutive pairs of digits denote, the high digit first. -/
def hexBytes : Bytes → Bytes
  | x :: y :: rest =>
    BitVec.ofNat 8 (16 * (hexValue x).getD 0 + (hexValue y).getD 0) :: hexBytes rest
  | _ => []

theorem digit_sixteen : ∀ c : U8, digit 16 c = hexValue c := by decide +kernel

theorem hexValue_lt : ∀ (c : U8), ∀ v ∈ hexValue c, v < 16 := by decide +kernel

/-! ## What `kstrtou8` makes of two characters -/

/-- Two digits, a plus sign and a digit, or a digit and a newline. -/
def pairByte (x y : U8) : Option ℕ :=
  match hexValue x, hexValue y with
  | some hi, some lo => some (16 * hi + lo)
  | some hi, none => if y = chr '\n' then some hi else none
  | none, some lo => if x = chr '+' then some lo else none
  | none, none => none

/-- `_kstrtoull` on a string whose digits are known. -/
theorem kstrtoullNoSign_of_parse {base : ℕ} {s rest : Bytes} {ds : List ℕ}
    (hparse : parseInteger base (fixupRadix base s) = (ds, rest))
    (hvalue : digitsValue base ds < 2 ^ 64) :
    kstrtoullNoSign base s = if ds.isEmpty then .error .EINVAL
      else if rest = [] ∨ rest = [chr '\n'] then .ok (digitsValue base ds)
      else .error .EINVAL := by
  unfold kstrtoullNoSign
  rw [hparse]
  exact if_neg (by omega)

/-- A `0x` is skipped, and leaves no digit. -/
theorem pairByte_radix : ∀ y : U8, y ||| 0x20 = chr 'x' → pairByte (chr '0') y = none := by
  decide +kernel

theorem kstrtou8_of_ull {s : Bytes} {v : ℕ} (h : kstrtoull 16 s = .ok v) (hv : v < 2 ^ 8) :
    (kstrtou8 16 s).toOption = some (BitVec.ofNat 8 v) := by
  unfold kstrtou8
  rw [h]
  show (if v ≥ 2 ^ 8 then _ else _ : Except Errno U8).toOption = _
  rw [if_neg (by omega)]
  rfl

theorem kstrtou8_of_error {s : Bytes} {e : Errno} (h : kstrtoull 16 s = .error e) :
    (kstrtou8 16 s).toOption = none := by
  unfold kstrtou8
  rw [h]
  rfl

/-- One character behind a plus sign. -/
theorem kstrtou8_plus (y : U8) :
    (kstrtou8 16 [chr '+', y]).toOption = (pairByte (chr '+') y).map (BitVec.ofNat 8) := by
  have hull : kstrtoull 16 [chr '+', y] = kstrtoullNoSign 16 [y] := by
    rw [kstrtoull, if_pos rfl]
  have hpair : pairByte (chr '+') y = hexValue y := by
    have hplus : hexValue (chr '+') = none := by decide
    rw [pairByte, hplus]
    cases hexValue y <;> rfl
  have hfix : fixupRadix 16 [y] = [y] := rfl
  rw [hpair]
  cases hy : hexValue y with
  | none =>
    have hparse : parseInteger 16 (fixupRadix 16 [y]) = ([], [y]) := by
      rw [hfix, parseInteger, digit_sixteen, hy]
    exact kstrtou8_of_error (hull.trans (kstrtoullNoSign_of_parse hparse (by decide)))
  | some v =>
    have hparse : parseInteger 16 (fixupRadix 16 [y]) = ([v], []) := by
      rw [hfix, parseInteger, digit_sixteen, hy, parseInteger]
    have hv := hexValue_lt y v hy
    have hvalue : digitsValue 16 [v] = v := Nat.zero_add v
    have hread := kstrtoullNoSign_of_parse hparse (by omega)
    rw [hvalue] at hread
    exact kstrtou8_of_ull (hull.trans hread) (by omega)

/-- Two characters of which the first is no sign. -/
theorem kstrtou8_two {x y : U8} (hx : x ≠ chr '+') :
    (kstrtou8 16 [x, y]).toOption = (pairByte x y).map (BitVec.ofNat 8) := by
  have hull : kstrtoull 16 [x, y] = kstrtoullNoSign 16 [x, y] := if_neg hx
  by_cases hradix : x = chr '0' ∧ y ||| 0x20 = chr 'x'
  · -- nothing is left behind the radix
    have hfix : fixupRadix 16 [x, y] = [] := if_pos hradix
    have hparse : parseInteger 16 (fixupRadix 16 [x, y]) = ([], []) := by
      rw [hfix]
      rfl
    rw [hradix.1, pairByte_radix y hradix.2, ← hradix.1]
    exact kstrtou8_of_error (hull.trans (kstrtoullNoSign_of_parse hparse (by decide)))
  · have hfix : fixupRadix 16 [x, y] = [x, y] := if_neg hradix
    have hparse : parseInteger 16 (fixupRadix 16 [x, y]) = match hexValue x, hexValue y with
        | some hi, some lo => ([hi, lo], [])
        | some hi, none => ([hi], [y])
        | none, _ => ([], [x, y]) := by
      rw [hfix, parseInteger, parseInteger, digit_sixteen, digit_sixteen]
      cases hexValue x <;> cases hexValue y <;> rfl
    cases hhi : hexValue x with
    | none =>
      have hpair : pairByte x y = none := by
        rw [pairByte, hhi]
        cases hexValue y with
        | none => rfl
        | some lo => exact if_neg hx
      rw [hhi] at hparse
      rw [hpair]
      exact kstrtou8_of_error (hull.trans (kstrtoullNoSign_of_parse hparse (by decide)))
    | some hi =>
      have hhilt := hexValue_lt x hi hhi
      cases hlo : hexValue y with
      | some lo =>
        have hlolt := hexValue_lt y lo hlo
        have hvalue : digitsValue 16 [hi, lo] = 16 * hi + lo := by
          show (0 * 16 + hi) * 16 + lo = 16 * hi + lo
          omega
        rw [hhi, hlo] at hparse
        have hread := kstrtoullNoSign_of_parse hparse (by omega)
        rw [hvalue] at hread
        rw [show pairByte x y = some (16 * hi + lo) by rw [pairByte, hhi, hlo]]
        exact kstrtou8_of_ull (hull.trans hread) (by omega)
      | none =>
        have hvalue : digitsValue 16 [hi] = hi := Nat.zero_add hi
        rw [hhi, hlo] at hparse
        have hread := kstrtoullNoSign_of_parse hparse (by omega)
        rw [hvalue] at hread
        rw [show pairByte x y = if y = chr '\n' then some hi else none by rw [pairByte, hhi, hlo]]
        by_cases hnl : y = chr '\n'
        · -- the newline ends the string
          rw [if_pos hnl]
          have hread' : kstrtoullNoSign 16 [x, y] = .ok hi := by
            rw [hread, hnl]
            rfl
          exact kstrtou8_of_ull (hull.trans hread') (by omega)
        · rw [if_neg hnl]
          have hread' : kstrtoullNoSign 16 [x, y] = .error .EINVAL := by
            rw [hread]
            show (if [y] = [] ∨ [y] = [chr '\n'] then _ else _) = _
            rw [if_neg]
            rintro (h | h)
            · cases h
            · exact hnl (List.singleton_inj.mp h)
          exact kstrtou8_of_error (hull.trans hread')

theorem kstrtou8_pair (x y : U8) :
    (kstrtou8 16 [x, y]).toOption = (pairByte x y).map (BitVec.ofNat 8) := by
  by_cases hx : x = chr '+'
  · rw [hx]
    exact kstrtou8_plus y
  · exact kstrtou8_two hx

/-! ## The loop over the pairs -/

/-- Read a text in pairs, from the front. -/
def readPairs : Bytes → Option Bytes
  | x :: y :: rest => (pairByte x y).bind fun v => (readPairs rest).map (BitVec.ofNat 8 v :: ·)
  | [] => some []
  | [_] => none

/-- One more pair at the end of an even text. -/
theorem readPairs_concat {n : ℕ} {hex : Bytes} (hlen : hex.length = n * 2) (x y : U8) :
    readPairs (hex ++ [x, y]) =
      (readPairs hex).bind fun bs => (pairByte x y).map fun v => bs ++ [BitVec.ofNat 8 v] := by
  induction n generalizing hex with
  | zero =>
    rw [List.length_eq_zero_iff.mp hlen]
    show (pairByte x y).bind _ = _
    cases pairByte x y <;> rfl
  | succ n ih =>
    match hex, hlen with
    | [_], hlen =>
      rw [List.length_singleton] at hlen
      omega
    | a :: b :: rest, hlen =>
      have hrest : rest.length = n * 2 := by
        rw [List.length_cons, List.length_cons] at hlen
        omega
      show (pairByte a b).bind (fun v => (readPairs (rest ++ [x, y])).map _) =
        ((pairByte a b).bind fun v => (readPairs rest).map _).bind _
      rw [ih hrest]
      cases pairByte a b with
      | none => rfl
      | some v =>
        cases readPairs rest with
        | none => rfl
        | some bs => cases pairByte x y <;> rfl

/-- The loop reads the pairs of a text of its length and puts them in front. -/
theorem parseBTagLoop_eq {n : ℕ} {val : Bytes} (hlen : val.length = n * 2) (pkt : Bytes) :
    (parseBTagLoop n val pkt).toOption = (readPairs val).map (· ++ pkt) := by
  induction n generalizing val pkt with
  | zero =>
    rw [List.length_eq_zero_iff.mp hlen]
    rfl
  | succ n ih =>
    -- the last two characters, and the text in front of them
    have hinit : (val.take (n * 2)).length = n * 2 := by
      rw [List.length_take]
      omega
    have hlast : (val.drop (n * 2)).length = 2 := by
      rw [List.length_drop]
      omega
    rcases List.length_eq_two.mp hlast with ⟨x, y, hxy⟩
    have hval : val = val.take (n * 2) ++ [x, y] := by
      rw [← hxy, List.take_append_drop]
    have hpair := kstrtou8_pair x y
    rw [hval, readPairs_concat hinit, ← hval, parseBTagLoop, hxy]
    cases hu8 : kstrtou8 16 [x, y] with
    | error e =>
      rw [hu8] at hpair
      rw [show pairByte x y = none from Option.map_eq_none_iff.mp hpair.symm]
      cases readPairs (val.take (n * 2)) <;> rfl
    | ok b =>
      rw [hu8] at hpair
      rcases Option.map_eq_some_iff.mp hpair.symm with ⟨v, hv, rfl⟩
      rw [hv]
      show (parseBTagLoop n (val.take (n * 2)) (BitVec.ofNat 8 v :: pkt)).toOption = _
      rw [ih hinit]
      cases readPairs (val.take (n * 2)) with
      | none => rfl
      | some bs => exact congrArg some (List.append_cons bs _ pkt)

/-! ## Result -/

/-- The tag of a literal. -/
def literalTag (pkt : Bytes) : JpTag := ⟨some pkt, none, pkt.length, none⟩

theorem readPairs_length {hex pkt : Bytes} (h : readPairs hex = some pkt) :
    hex.length = pkt.length * 2 := by
  induction hex using readPairs.induct generalizing pkt with
  | case1 x y rest ih =>
    rcases Option.bind_eq_some_iff.mp h with ⟨v, -, hmap⟩
    rcases Option.map_eq_some_iff.mp hmap with ⟨bs, hbs, rfl⟩
    rw [List.length_cons, List.length_cons, List.length_cons, ih hbs]
    omega
  | case2 =>
    cases h
    rfl
  | case3 x => cases h

/-- The result of the tag on a text of the right shape. -/
theorem parseBTag_result {hex : Bytes} (hne : hex ≠ []) (heven : hex.length % 2 = 0) :
    (parseBTag (some (chr '0' :: chr 'x' :: hex))).result.toOption =
      (readPairs hex).map literalTag := by
  have hlen : hex.length = hex.length / 2 * 2 := by omega
  have hpos : hex.length ≠ 0 := fun hzero => hne (List.length_eq_zero_iff.mp hzero)
  have hloop := parseBTagLoop_eq hlen []
  have hshape : parseBTag (some (chr '0' :: chr 'x' :: hex)) = (do
      Routine.kmalloc (hex.length / 2)
      let pkt ← Routine.ofExcept (parseBTagLoop (hex.length / 2) hex [])
      Routine.kmalloc jpTagSize
      pure ⟨some pkt, none, (hex.length / 2 : ℕ), none⟩) := by
    have htake : ¬ (chr '0' :: chr 'x' :: hex).take 2 ≠ [chr '0', chr 'x'] := not_not.mpr rfl
    have hdrop : (chr '0' :: chr 'x' :: hex).drop 2 = hex := rfl
    rw [parseBTag, if_neg htake, hdrop, if_neg (by omega)]
  rw [hshape]
  cases hread : parseBTagLoop (hex.length / 2) hex [] with
  | error e =>
    rw [hread] at hloop
    rw [Option.map_eq_none_iff.mp hloop.symm]
    rfl
  | ok pkt =>
    rw [hread] at hloop
    rcases Option.map_eq_some_iff.mp hloop.symm with ⟨bs, hbs, hpkt⟩
    rw [List.append_nil] at hpkt
    have hsize : hex.length / 2 = pkt.length := by
      rw [← hpkt]
      have := readPairs_length hbs
      omega
    rw [hbs, hpkt, hsize]
    rfl

/-- Exactly what the tag accepts: `0x` and a positive number of pairs that `kstrtou8` takes. -/
theorem parseBTag_ok_iff (val : Bytes) (tag : JpTag) :
    (parseBTag (some val)).result = .ok tag ↔
      ∃ hex pkt, val = chr '0' :: chr 'x' :: hex ∧ hex ≠ [] ∧ readPairs hex = some pkt ∧
        tag = literalTag pkt := by
  constructor
  · intro h
    by_cases htake : val.take 2 = [chr '0', chr 'x']
    · have hval : val = chr '0' :: chr 'x' :: val.drop 2 := by
        rw [← List.take_append_drop 2 val, htake]
        rfl
      by_cases hlen : (val.drop 2).length = 0 ∨ (val.drop 2).length % 2 ≠ 0
      · rw [parseBTag, if_neg (not_not.mpr htake), if_pos hlen] at h
        cases h
      · rw [not_or, not_not] at hlen
        have hne : val.drop 2 ≠ [] := fun hnil => hlen.1 (List.length_eq_zero_iff.mpr hnil)
        have hresult := parseBTag_result hne hlen.2
        rw [← hval, h] at hresult
        rcases Option.map_eq_some_iff.mp hresult.symm with ⟨pkt, hpkt, htag⟩
        exact ⟨val.drop 2, pkt, hval, hne, hpkt, htag.symm⟩
    · rw [parseBTag, if_pos htake] at h
      cases h
  · rintro ⟨hex, pkt, rfl, hne, hpkt, rfl⟩
    have hlen := readPairs_length hpkt
    have hresult := parseBTag_result hne (by omega)
    rw [hpkt] at hresult
    cases h : (parseBTag (some (chr '0' :: chr 'x' :: hex))).result with
    | error e =>
      rw [h] at hresult
      cases hresult
    | ok tag =>
      rw [h] at hresult
      exact congrArg Except.ok (Option.some.inj hresult)

/-- A text of digits is read in pairs of digits. -/
theorem readPairs_hex {hex : Bytes} (heven : hex.length % 2 = 0)
    (hdigits : ∀ c ∈ hex, (hexValue c).isSome) : readPairs hex = some (hexBytes hex) := by
  induction hex using readPairs.induct with
  | case1 x y rest ih =>
    rw [List.forall_mem_cons, List.forall_mem_cons] at hdigits
    rcases hdigits with ⟨hx, hy, hrest⟩
    rcases Option.isSome_iff_exists.mp hx with ⟨hi, hhi⟩
    rcases Option.isSome_iff_exists.mp hy with ⟨lo, hlo⟩
    have heven' : rest.length % 2 = 0 := by
      rw [List.length_cons, List.length_cons] at heven
      omega
    rw [readPairs, hexBytes, pairByte, hhi, hlo, ih heven' hrest]
    rfl
  | case2 => rfl
  | case3 x => cases heven

/-- Without plus signs and newlines, every pair that is taken is a pair of digits. -/
theorem digits_of_readPairs {hex pkt : Bytes} (hplus : chr '+' ∉ hex) (hnl : chr '\n' ∉ hex)
    (h : readPairs hex = some pkt) : ∀ c ∈ hex, (hexValue c).isSome := by
  induction hex using readPairs.induct generalizing pkt with
  | case1 x y rest ih =>
    rw [List.mem_cons, List.mem_cons, not_or, not_or] at hplus hnl
    rcases Option.bind_eq_some_iff.mp h with ⟨v, hv, hmap⟩
    rcases Option.map_eq_some_iff.mp hmap with ⟨bs, hbs, -⟩
    have hrest := ih hplus.2.2 hnl.2.2 hbs
    have hpair : (hexValue x).isSome ∧ (hexValue y).isSome := by
      unfold pairByte at hv
      cases hx : hexValue x <;> cases hy : hexValue y <;> rw [hx, hy] at hv <;> dsimp only at hv
      · cases hv
      · rw [if_neg (Ne.symm hplus.1)] at hv
        cases hv
      · rw [if_neg (Ne.symm hnl.2.1)] at hv
        cases hv
      · exact ⟨rfl, rfl⟩
    rw [List.forall_mem_cons, List.forall_mem_cons]
    exact ⟨hpair.1, hpair.2, hrest⟩
  | case2 =>
    intro c hc
    cases hc
  | case3 x => cases h

/-- Consecutive pairs of characters: two digits, a plus sign and a digit, or a digit and a
newline. -/
def LoosePairs : Bytes → Prop
  | x :: y :: rest =>
    ((hexValue x).isSome ∧ (hexValue y).isSome ∨ x = chr '+' ∧ (hexValue y).isSome ∨
      (hexValue x).isSome ∧ y = chr '\n') ∧ LoosePairs rest
  | [] => True
  | [_] => False

theorem pairByte_isSome : ∀ x y : U8, (pairByte x y).isSome ↔
    (hexValue x).isSome ∧ (hexValue y).isSome ∨ x = chr '+' ∧ (hexValue y).isSome ∨
      (hexValue x).isSome ∧ y = chr '\n' := by
  intro x y
  unfold pairByte
  cases hx : hexValue x <;> cases hy : hexValue y
  · simp
  · by_cases h : x = chr '+' <;> simp [h]
  · by_cases h : y = chr '\n' <;> simp [h]
  · simp

theorem readPairs_isSome (hex : Bytes) : (readPairs hex).isSome ↔ LoosePairs hex := by
  induction hex using readPairs.induct with
  | case1 x y rest ih =>
    rw [LoosePairs, ← pairByte_isSome, ← ih, readPairs]
    cases pairByte x y <;> cases readPairs rest <;> simp
  | case2 => simp [readPairs, LoosePairs]
  | case3 x => simp [readPairs, LoosePairs]

/-- The tag accepts a text just if it is `0x` and a positive even number of hexadecimal digits,
and stores the bytes that the pairs of digits denote. -/
def ReadsHex (val : Bytes) : Prop :=
  ((∃ tag, (parseBTag (some val)).result = .ok tag) ↔
    ∃ hex, val = chr '0' :: chr 'x' :: hex ∧ HexText hex) ∧
  ∀ hex tag, val = chr '0' :: chr 'x' :: hex → (parseBTag (some val)).result = .ok tag →
    tag = literalTag (hexBytes hex)

/-- The texts on which the tag does not read hexadecimal digits are exactly `0x` and pairs that
`kstrtou8` takes, with at least one plus sign or newline among them. -/
theorem parseBTag_accepts_hex (val : Bytes) :
    ReadsHex val ↔ ¬ ∃ hex, val = chr '0' :: chr 'x' :: hex ∧ LoosePairs hex ∧
      (chr '+' ∈ hex ∨ chr '\n' ∈ hex) := by
  constructor
  · rintro ⟨haccept, -⟩ ⟨hex, hval, hpairs, hsign⟩
    rcases Option.isSome_iff_exists.mp ((readPairs_isSome hex).mpr hpairs) with ⟨pkt, hpkt⟩
    have hne : hex ≠ [] := by
      rintro rfl
      simp at hsign
    -- the text is accepted, so all of it would have to be digits
    rcases haccept.mp ⟨_, (parseBTag_ok_iff val _).mpr ⟨hex, pkt, hval, hne, hpkt, rfl⟩⟩ with
      ⟨hex', hval', hhex⟩
    have heq : hex' = hex := by
      rw [hval] at hval'
      exact (List.cons.inj (List.cons.inj hval').2).2.symm
    rw [heq] at hhex
    rcases hsign with hplus | hnl
    · exact absurd (hhex.digits _ hplus) (by decide)
    · exact absurd (hhex.digits _ hnl) (by decide)
  · intro hcond
    have hread : ∀ hex pkt, val = chr '0' :: chr 'x' :: hex → readPairs hex = some pkt →
        (∀ c ∈ hex, (hexValue c).isSome) ∧ pkt = hexBytes hex := by
      intro hex pkt hval hpkt
      have hpairs : LoosePairs hex := (readPairs_isSome hex).mp (by rw [hpkt]; rfl)
      have hdigits := digits_of_readPairs (fun hplus => hcond ⟨hex, hval, hpairs, .inl hplus⟩)
        (fun hnl => hcond ⟨hex, hval, hpairs, .inr hnl⟩) hpkt
      have hlen := readPairs_length hpkt
      rw [readPairs_hex (by omega) hdigits] at hpkt
      exact ⟨hdigits, (Option.some.inj hpkt).symm⟩
    refine ⟨⟨?_, ?_⟩, ?_⟩
    · rintro ⟨tag, htag⟩
      rcases (parseBTag_ok_iff val tag).mp htag with ⟨hex, pkt, hval, hne, hpkt, -⟩
      have hlen := readPairs_length hpkt
      exact ⟨hex, hval, hne, by omega, (hread hex pkt hval hpkt).1⟩
    · rintro ⟨hex, hval, hhex⟩
      exact ⟨_, (parseBTag_ok_iff val _).mpr
        ⟨hex, _, hval, hhex.nonempty, readPairs_hex hhex.even hhex.digits, rfl⟩⟩
    · intro hex tag hval htag
      rcases (parseBTag_ok_iff val tag).mp htag with ⟨hex', pkt, hval', -, hpkt, htag'⟩
      have hhex : hex' = hex := by
        rw [hval] at hval'
        exact (List.cons.inj (List.cons.inj hval').2).2.symm
      rw [htag', (hread hex' pkt hval' hpkt).2, hhex]

/-- A plus sign and a newline are taken for half of a pair. -/
theorem parseBTag_accepts_signs :
    (parseBTag (some (ascii "0x+a"))).result = .ok (literalTag [10]) ∧
      (parseBTag (some (ascii "0xa\n"))).result = .ok (literalTag [10]) ∧
      hexValue (chr '+') = none ∧ hexValue (chr '\n') = none := by
  decide

end AmneziaWg.Junk

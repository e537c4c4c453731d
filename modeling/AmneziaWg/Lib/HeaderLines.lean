import AmneziaWg.Lib.Text

/-!
# Header lines

The text form of internet messages: lines that end in CR LF, of which an empty one ends the
header, and fields of a name, a colon and a value in such a line.

* **Readers**: `readLine`, `block`, `fieldName`, `numberField`.
* **Lines**: `IsLine`; `block_lines`, complete lines and an empty one are read back with
  what follows them.
-/

namespace HeaderLines

open Linux

def crlf : Bytes := [0x0d, 0x0a]

/-! ## Readers -/

/-- The next line, with its end. -/
def readLine : Bytes → Option (Bytes × Bytes)
  | [] => none
  | [_] => none
  | a :: b :: bs =>
    if a = 0x0d ∧ b = 0x0a then some (crlf, bs)
    else (readLine (b :: bs)).map fun (line, rest) => (a :: line, rest)

/-- The lines in front of an empty one, while there is fuel. -/
def readBlock : ℕ → Bytes → Option (List Bytes × Bytes)
  | 0, _ => none
  | n + 1, bs =>
    (readLine bs).bind fun (line, rest) =>
      if line = crlf then some ([], rest)
      else (readBlock n rest).map fun (lines, rest) => (line :: lines, rest)

/-- There are no more lines than bytes. -/
def block (bs : Bytes) : Option (List Bytes × Bytes) := readBlock bs.length bs

def fieldName (line : Bytes) : Bytes := line.takeWhile (· ≠ chr ':')

/-- The value of a field that is a number: behind the colon only spaces, digits and the end
of the line. -/
def numberField (line : Bytes) : Option ℕ :=
  let value := (line.drop ((fieldName line).length + 1)).dropWhile (· = chr ' ')
  let parsed := parseInteger 10 value
  if parsed.1 ≠ [] ∧ parsed.2 = crlf then some (digitsValue 10 parsed.1) else none

/-! ## Lines -/

/-- A line that is not empty: a text without line ends and the line end. -/
structure IsLine (line : Bytes) : Prop where
  text : ∃ text : Bytes, line = text ++ crlf ∧ text ≠ [] ∧ 0x0d ∉ text

variable {text : Bytes}

theorem isLine_text (hne : text ≠ []) (hcr : (0x0d : U8) ∉ text) :
    IsLine (text ++ crlf) := ⟨⟨text, rfl, hne, hcr⟩⟩

variable {line : Bytes}

/-- More text in front of a line. -/
theorem IsLine.prepend (h : IsLine line) (hcr : (0x0d : U8) ∉ text) : IsLine (text ++ line) := by
  rcases h.text with ⟨text', rfl, hne, hcr'⟩
  rw [← List.append_assoc]
  refine isLine_text (List.append_ne_nil_of_right_ne_nil _ hne) ?_
  intro hmem
  exact (List.mem_append.mp hmem).elim hcr hcr'

theorem readLine_text (h : (0x0d : U8) ∉ text) (rest : Bytes) :
    readLine (text ++ crlf ++ rest) = some (text ++ crlf, rest) := by
  induction text with
  | nil => exact if_pos ⟨rfl, rfl⟩
  | cons a text ih =>
    have hne : ∀ b : U8, ¬(a = 0x0d ∧ b = 0x0a) := by
      rintro b ⟨ha, -⟩
      rw [ha] at h
      exact h (List.mem_cons_self ..)
    have hlater := ih fun htext => h (List.mem_cons_of_mem a htext)
    -- the line end follows, so that there are two bytes to look at
    cases hbytes : text ++ crlf ++ rest with
    | nil => simp [crlf] at hbytes
    | cons b bs =>
      rw [List.cons_append, List.cons_append, hbytes, readLine, if_neg (hne b), ← hbytes,
        hlater, Option.map_some]

theorem IsLine.ne_crlf (h : IsLine line) : line ≠ crlf := by
  rcases h.text with ⟨text, rfl, hne, -⟩
  intro heq
  have hlen : (text ++ crlf).length = crlf.length := congrArg List.length heq
  rw [List.length_append] at hlen
  exact hne (List.length_eq_zero_iff.mp (by omega))

theorem IsLine.readLine_append (h : IsLine line) (rest : Bytes) :
    readLine (line ++ rest) = some (line, rest) := by
  rcases h.text with ⟨text, rfl, -, hcr⟩
  exact readLine_text hcr rest

variable {lines : List Bytes}

theorem readBlock_lines {n : ℕ} (hn : lines.length < n) (h : ∀ l ∈ lines, IsLine l) (rest : Bytes) :
    readBlock n (lines.flatten ++ crlf ++ rest) = some (lines, rest) := by
  induction lines generalizing n with
  | nil =>
    obtain ⟨n, rfl⟩ : ∃ m, n = m + 1 := ⟨n - 1, by omega⟩
    have hend := readLine_text (List.not_mem_nil (a := 0x0d)) rest
    rw [readBlock, List.flatten_nil, hend, List.nil_append, Option.bind_some]
    exact if_pos rfl
  | cons line lines ih =>
    rw [List.length_cons] at hn
    obtain ⟨n, rfl⟩ : ∃ m, n = m + 1 := ⟨n - 1, by omega⟩
    have hline := h line (List.mem_cons_self ..)
    have hlater := ih (n := n) (by omega) fun l hl => h l (List.mem_cons_of_mem _ hl)
    have hfirst := hline.readLine_append (lines.flatten ++ crlf ++ rest)
    rw [readBlock, List.flatten_cons, List.append_assoc, List.append_assoc,
      ← List.append_assoc lines.flatten, hfirst, Option.bind_some]
    dsimp only
    rw [if_neg hline.ne_crlf, hlater, Option.map_some]

theorem length_le_flatten (h : ∀ l ∈ lines, IsLine l) : lines.length ≤ lines.flatten.length := by
  induction lines with
  | nil => exact Nat.le_refl 0
  | cons line lines ih =>
    rcases (h line (List.mem_cons_self ..)).text with ⟨text, hline, -, -⟩
    have hpos : 2 ≤ line.length := by
      rw [hline, List.length_append]
      exact Nat.le_add_left 2 _
    have hlater := ih fun l hl => h l (List.mem_cons_of_mem _ hl)
    rw [List.flatten_cons, List.length_append, List.length_cons]
    omega

theorem block_lines (h : ∀ l ∈ lines, IsLine l) (rest : Bytes) :
    block (lines.flatten ++ crlf ++ rest) = some (lines, rest) := by
  refine readBlock_lines ?_ h rest
  have hle := length_le_flatten h
  have hend : crlf.length = 2 := rfl
  rw [List.length_append, List.length_append, hend]
  omega

/-! ## Fields -/

theorem fieldName_append {name : Bytes} (h : chr ':' ∉ name) (rest : Bytes) :
    fieldName (name ++ chr ':' :: rest) = name := by
  have hne : ∀ c ∈ name, decide (c ≠ chr ':') = true := by
    intro c hc
    exact decide_eq_true fun heq => h (heq ▸ hc)
  have hstop : decide (chr ':' ≠ chr ':') = false := decide_eq_false (not_not.mpr rfl)
  rw [fieldName, List.takeWhile_append_of_pos hne, List.takeWhile_cons, hstop]
  exact List.append_nil name

theorem parseInteger_append {ds : List ℕ} (h : ∀ d ∈ ds, d < 10) {c : U8}
    (hc : digit 10 c = none) (rest : Bytes) :
    parseInteger 10 (numeral ds ++ c :: rest) = (ds, c :: rest) := by
  induction ds with
  | nil =>
    show parseInteger 10 (c :: rest) = ([], c :: rest)
    rw [parseInteger, hc]
  | cons d ds ih =>
    have hd := digit_digitChar d (h d (List.mem_cons_self ..))
    have hds := ih fun e he => h e (List.mem_cons_of_mem d he)
    rw [numeral, List.map_cons, List.cons_append, parseInteger, hd]
    dsimp only
    rw [← numeral, hds]

/-- What `%d` prints in a field is the number that is read from it. -/
theorem numberField_toDigits {name : Bytes} (h : chr ':' ∉ name) (spaces n : ℕ) :
    numberField (name ++ chr ':' :: (List.replicate spaces (chr ' ') ++
      ((Nat.toDigits 10 n).map chr ++ crlf))) = some n := by
  rcases toDigits_numeral n with ⟨ds, hds, hvalue, htext⟩
  have hstop : digit 10 0x0d = none := by decide
  have hparse := parseInteger_append hds.digits hstop [0x0a]
  -- the first digit is no space
  have hskip : (List.replicate spaces (chr ' ') ++ (numeral ds ++ crlf)).dropWhile (· = chr ' ') =
      numeral ds ++ crlf := by
    have hspaces : ∀ c ∈ List.replicate spaces (chr ' '), decide (c = chr ' ') = true := by
      intro c hc
      exact decide_eq_true (List.eq_of_mem_replicate hc)
    rw [List.dropWhile_append_of_pos hspaces]
    cases hfirst : numeral ds with
    | nil => exact absurd (List.map_eq_nil_iff.mp hfirst) hds.nonempty
    | cons c cs =>
      have hmem : c ∈ numeral ds := by
        rw [hfirst]
        exact List.mem_cons_self ..
      have hne : decide (c = chr ' ') = false := by
        refine decide_eq_false ?_
        intro heq
        rw [heq] at hmem
        exact absurd (mem_numeral hds hmem).1 (by decide)
      rw [List.cons_append, List.dropWhile_cons, hne]
      rfl
  have hbehind : (name ++ chr ':' :: (List.replicate spaces (chr ' ') ++
      (numeral ds ++ crlf))).drop (name.length + 1) =
        List.replicate spaces (chr ' ') ++ (numeral ds ++ crlf) := by
    rw [← List.drop_drop, List.drop_left, List.drop_one, List.tail_cons]
  rw [numberField, htext, fieldName_append h, hbehind, hskip,
    show numeral ds ++ crlf = numeral ds ++ 0x0d :: [0x0a] from rfl, hparse,
    if_pos ⟨hds.nonempty, rfl⟩, hvalue]

end HeaderLines

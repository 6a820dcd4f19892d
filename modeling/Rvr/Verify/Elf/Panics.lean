import Rvr.Elf.Image

/-!
# When the ELF parser panics

Reads behind a bounds check return (`returns_readLe` and what follows from it), so the parser can
only panic where it computes with fields of the file: at the end of a table entry, in the data and
the name of a section, in the table of symbols and at the end of a segment in the file.
-/

namespace Rvr.Elf

open Outcome Xlen List

variable {X : Xlen} {data : Slice}

/-! ## Reads inside the data -/

variable {offset : ℕ}

theorem returns_readLe {n : ℕ} (h : offset + n ≤ data.length) :
    (readLe n data offset).Returns := by
  refine (returns_traverse fun i hi => returns_index ?_).bind fun _ _ => returns_ok _
  exact (Nat.add_lt_add_left (mem_range.1 hi) offset).trans_le h

theorem returns_readLe16 {offset : ℕ} (h : offset + 2 ≤ data.length) :
    (readLe16 data offset).Returns :=
  (returns_readLe h).bind fun _ _ => returns_ok _

theorem returns_readLe32 {offset : ℕ} (h : offset + 4 ≤ data.length) :
    (readLe32 data offset).Returns :=
  (returns_readLe h).bind fun _ _ => returns_ok _

theorem returns_readReg32 {offset : ℕ} (h : offset + 4 ≤ data.length) :
    (readReg32 X data offset).Returns :=
  (returns_readLe32 h).bind fun _ _ => returns_ok _

theorem returns_readReg64 {offset : ℕ} (h : offset + 8 ≤ data.length) :
    (readReg64 X data offset).Returns :=
  ((returns_readLe h).bind fun _ _ => returns_ok _).bind fun _ _ => returns_ok _

theorem returns_readProgramHeader (h : offset + programHeaderSize X ≤ data.length) :
    (readProgramHeader X data offset).Returns := by
  cases X with
  | rv32 =>
    change offset + 32 ≤ data.length at h
    refine (returns_readLe32 (by omega)).bind fun _ _ => ?_
    iterate 5 refine (returns_readReg32 (by omega)).bind fun _ _ => ?_
    refine (returns_readLe32 (by omega)).bind fun _ _ => ?_
    exact (returns_readReg32 (by omega)).bind fun _ _ => returns_ok _
  | rv64 =>
    change offset + 56 ≤ data.length at h
    iterate 2 refine (returns_readLe32 (by omega)).bind fun _ _ => ?_
    iterate 5 refine (returns_readReg64 (by omega)).bind fun _ _ => ?_
    exact (returns_readReg64 (by omega)).bind fun _ _ => returns_ok _

theorem returns_readSectionHeader (h : offset + sectionHeaderSize X ≤ data.length) :
    (readSectionHeader X data offset).Returns := by
  cases X with
  | rv32 =>
    change offset + 40 ≤ data.length at h
    iterate 2 refine (returns_readLe32 (by omega)).bind fun _ _ => ?_
    iterate 4 refine (returns_readReg32 (by omega)).bind fun _ _ => ?_
    iterate 2 refine (returns_readLe32 (by omega)).bind fun _ _ => ?_
    iterate 1 refine (returns_readReg32 (by omega)).bind fun _ _ => ?_
    exact (returns_readReg32 (by omega)).bind fun _ _ => returns_ok _
  | rv64 =>
    change offset + 64 ≤ data.length at h
    iterate 2 refine (returns_readLe32 (by omega)).bind fun _ _ => ?_
    iterate 4 refine (returns_readReg64 (by omega)).bind fun _ _ => ?_
    iterate 2 refine (returns_readLe32 (by omega)).bind fun _ _ => ?_
    iterate 1 refine (returns_readReg64 (by omega)).bind fun _ _ => ?_
    exact (returns_readReg64 (by omega)).bind fun _ _ => returns_ok _

theorem returns_parseHeader64 {magic : BitVec 32} {cls enc version abi abiVersion : BitVec 8}
    (h : 64 ≤ data.length) :
    (parseHeader64 X data magic cls enc version abi abiVersion).Returns := by
  iterate 3 refine (returns_readReg64 (by omega)).bind fun _ _ => ?_
  refine (returns_readLe32 (by omega)).bind fun _ _ => ?_
  iterate 5 refine (returns_readLe16 (by omega)).bind fun _ _ => ?_
  exact (returns_readLe16 (by omega)).bind fun _ _ => returns_ok _

theorem returns_parseHeader32 {magic : BitVec 32} {cls enc version abi abiVersion : BitVec 8}
    (h : 52 ≤ data.length) :
    (parseHeader32 X data magic cls enc version abi abiVersion).Returns := by
  unfold parseHeader32
  iterate 3 refine (returns_readReg32 (by omega)).bind fun _ _ => ?_
  refine (returns_readLe32 (by omega)).bind fun _ _ => ?_
  iterate 5 refine (returns_readLe16 (by omega)).bind fun _ _ => ?_
  exact (returns_readLe16 (by omega)).bind fun _ _ => returns_ok _

/-- The header is read behind the check of its size. -/
theorem parseHeader_ne_panic : parseHeader X data ≠ panic := by
  unfold parseHeader
  rw [ne_eq, guard_eq_panic, guard_eq_panic]
  rintro ⟨hsmall, -, hpanic⟩
  have hsize : (if X.value = 64 then 64 else 52) ≤ data.length := Nat.le_of_not_lt hsmall
  have hsize' : 52 ≤ data.length := by
    refine le_trans ?_ hsize
    split_ifs <;> decide
  revert hpanic
  refine bind_ne_panic (returns_readLe32 (by omega)).ne_panic fun magic _ => ?_
  rw [ne_eq, guard_eq_panic]
  rintro ⟨-, hpanic⟩
  revert hpanic
  iterate 5
    refine bind_ne_panic (returns_index (by change _ < data.length; omega)).ne_panic fun _ _ => ?_
  rw [ne_eq, guard_eq_panic]
  rintro ⟨-, hpanic⟩
  split_ifs at hpanic with hX
  · rw [if_pos hX] at hsize
    exact (returns_parseHeader64 hsize).ne_panic hpanic
  · exact (returns_parseHeader32 hsize').ne_panic hpanic

/-! ## Tables -/

/-- Table entries are parsed inside the data; the sum that says where an entry ends is the only
thing that can overflow. -/
theorem parseEntry_eq_panic {α : Type} {size : ℕ} {error : ElfError} {read : ℕ → Result α}
    (hread : offset + size ≤ data.length → (read offset).Returns) :
    parseEntry data size error read offset = panic ↔ 2 ^ 64 ≤ offset + size := by
  unfold parseEntry
  rcases Nat.lt_or_ge (offset + size) (2 ^ 64) with hlt | hge
  · rw [add_of_lt hlt, ok_bind, guard_eq_panic, Nat.not_lt]
    refine ⟨fun ⟨hin, hpanic⟩ => absurd hpanic (hread hin).ne_panic, ?_⟩
    omega
  · rw [add_of_le hge]
    exact iff_of_true rfl hge

theorem le_length_of_parseEntry {α : Type} {size : ℕ} {error : ElfError}
    {read : ℕ → Result α} {a : α} (h : parseEntry data size error read offset = ok a) :
    offset + size ≤ data.length := by
  obtain ⟨stop, hstop, h⟩ := bind_eq_ok.1 h
  obtain ⟨hle, -⟩ := guard_eq_ok.1 h
  obtain ⟨-, rfl⟩ := add_eq_ok.1 hstop
  exact Nat.le_of_not_lt hle

theorem mem_of_range_eq_append {n i k : ℕ} {before after : List ℕ}
    (h : range n = before ++ i :: after) (hk : k < i) : k ∈ before := by
  have hlength : before.length = i := by
    have hget := congrArg (·[before.length]?) h
    have hlt : before.length < n := by
      rw [← length_range (n := n), h, length_append, length_cons]
      omega
    simpa [hlt] using hget
  have htake : before = range (min i n) := by
    rw [← take_range, h, ← hlength, take_left]
  have hi : i < n := by
    rw [← mem_range, h]
    simp
  rw [htake, mem_range]
  omega

/-- After one entry inside the data the next one ends below `2 ^ 64`, so a table overflows at its
first entry or not at all. -/
theorem parseTable_eq_panic {α : Type} {start size : ℕ} {num entsize : BitVec 16} {error : ElfError}
    {read : ℕ → Result α} (hstart : start < 2 ^ 64)
    (hread : ∀ offset, offset + size ≤ data.length → (read offset).Returns) :
    parseTable start num entsize (parseEntry data size error read) = panic ↔
      0 < num.toNat ∧ 2 ^ 64 ≤ start + size := by
  have hent : entsize.toNat < 2 ^ 16 := entsize.isLt
  have hnum : num.toNat < 2 ^ 16 := num.isLt
  have hlength : data.length < 2 ^ 63 := data.length_lt
  -- the loop body, once the product of two `u16`s is known to fit
  have hbody : ∀ i < num.toNat, (do
      let step ← Outcome.mul 64 i entsize.toNat
      let offset ← Outcome.add 64 start step
      parseEntry data size error read offset : Result α) = (do
      let offset ← Outcome.add 64 start (i * entsize.toNat)
      parseEntry data size error read offset) := by
    intro i hi
    have hstep : i * entsize.toNat < 2 ^ 16 * 2 ^ 16 :=
      Nat.mul_lt_mul'' (hi.trans hnum) hent
    rw [mul_of_lt (by omega), ok_bind]
  unfold parseTable
  rw [traverse_eq_panic]
  constructor
  · rintro ⟨before, i, after, heq, hbefore, hpanic⟩
    have hi : i < num.toNat := by
      rw [← mem_range, heq]
      simp
    refine ⟨by omega, ?_⟩
    rw [hbody i hi] at hpanic
    cases i with
    | zero =>
      rw [Nat.zero_mul, add_of_lt (by omega)] at hpanic
      exact (parseEntry_eq_panic (hread _)).1 hpanic
    | succ k =>
      -- entry `k` was parsed, so it is inside the data and the next one is not far behind
      exfalso
      obtain ⟨a, ha⟩ := hbefore k (mem_of_range_eq_append heq (Nat.lt_succ_self k))
      rw [hbody k (by omega)] at ha
      obtain ⟨offset, hoffset, ha⟩ := bind_eq_ok.1 ha
      have hin := le_length_of_parseEntry ha
      obtain ⟨-, rfl⟩ := add_eq_ok.1 hoffset
      rw [Nat.succ_mul, add_of_lt (by omega), ok_bind, parseEntry_eq_panic (hread _)] at hpanic
      omega
  · rintro ⟨hpos, hover⟩
    refine ⟨[], 0, (range num.toNat).tail, ?_, by simp, ?_⟩
    · obtain ⟨n, hn⟩ := Nat.exists_eq_add_of_lt hpos
      rw [hn, range_succ_eq_map]
      rfl
    · rw [hbody 0 hpos, Nat.zero_mul, add_of_lt (by omega)]
      exact (parseEntry_eq_panic (hread _)).2 hover

/-! ## Sections -/

theorem extractString_eq_panic {strtabOffset stringOffset : ℕ} :
    extractString data strtabOffset stringOffset = panic ↔
      2 ^ 64 ≤ strtabOffset + stringOffset := by
  rw [extractString, bind_eq_panic, add_eq_panic, or_iff_left]
  rintro ⟨start, -, h⟩
  cases h

theorem errless_extractString (strtabOffset stringOffset : ℕ) :
    (extractString data strtabOffset stringOffset).Errless :=
  (errless_add _ _ _).bind fun _ => errless_ok _

/-- The data of a section does not fit into a vector, or its last byte is past the last offset. -/
def SectionHeader.DataOverflows (sec : SectionHeader X) : Prop :=
  sec.shType = shtProgbits ∧
      (2 ^ 63 ≤ sec.size.toNat ∨ 2 ^ 64 < sec.offset.toNat + sec.size.toNat) ∨
    sec.shType = shtNobits ∧ 2 ^ 63 ≤ sec.size.toNat

theorem loadSectionData_eq_panic {sec : SectionHeader X} :
    loadSectionData data sec = panic ↔ sec.DataOverflows := by
  unfold loadSectionData SectionHeader.DataOverflows isizeMax
  rw [← toNat_toU64 sec.size, ← toNat_toU64 sec.offset]
  dsimp only
  generalize (toU64 sec.size).toNat = size
  by_cases hprog : sec.shType = shtProgbits
  · have hne : shtProgbits ≠ shtNobits := by decide
    rw [if_pos hprog, hprog, and_iff_right rfl, or_iff_left fun h => hne h.1]
    split_ifs with hsize
    · exact iff_of_true rfl (.inl (by omega))
    · refine (traverse_eq_panic_iff_exists
        fun i _ => (errless_add _ _ _).bind fun _ => errless_ok _).trans ?_
      simp only [bind_eq_panic, add_eq_panic, mem_range, reduceCtorEq, and_false, exists_false,
        or_false]
      -- some byte overflows exactly if the last one does
      constructor
      · rintro ⟨i, hi, hover⟩
        exact .inr (by omega)
      · rintro (hover | hover)
        · omega
        · exact ⟨size - 1, by omega, by omega⟩
  · rw [or_iff_right fun h => hprog h.1]
    split_ifs with hno hsize
    · exact iff_of_true rfl ⟨hno, by omega⟩
    · refine iff_of_false id ?_
      omega
    · exact iff_of_false id fun h => hno h.1

theorem errless_loadSectionData (sec : SectionHeader X) : (loadSectionData data sec).Errless := by
  unfold loadSectionData
  dsimp only
  split_ifs
  · exact errless_panic
  · exact errless_traverse fun i _ => (errless_add _ _ _).bind fun _ => errless_ok _
  · exact errless_panic
  · exact errless_ok _
  · exact errless_ok _

/-- The name of a section, which is looked up only if there is a string table. -/
theorem loadSection_eq_panic {strtab : Option (SectionHeader X)} {sec : SectionHeader X} :
    loadSection data strtab sec = panic ↔
      sec.DataOverflows ∨ ∃ tab ∈ strtab, 2 ^ 64 ≤ tab.offset.toNat + sec.name.toNat := by
  unfold loadSection
  rw [bind_eq_panic, loadSectionData_eq_panic]
  constructor
  · rintro (hover | ⟨sectionData, -, hpanic⟩)
    · exact .inl hover
    · cases strtab with
      | none => cases hpanic
      | some tab =>
        refine .inr ⟨tab, rfl, ?_⟩
        rcases bind_eq_panic.1 hpanic with hname | ⟨name, -, h⟩
        · rwa [extractString_eq_panic, toNat_toU64] at hname
        · cases h
  · rintro (hover | ⟨tab, htab, hover⟩)
    · exact .inl hover
    · cases hdata : loadSectionData data sec with
      | ok sectionData =>
        refine .inr ⟨sectionData, rfl, ?_⟩
        rw [Option.mem_def.1 htab]
        refine bind_eq_panic.2 (.inl (extractString_eq_panic.2 ?_))
        rwa [toNat_toU64]
      | err e => exact absurd hdata (errless_loadSectionData sec e)
      | panic => exact .inl (loadSectionData_eq_panic.1 hdata)

theorem errless_loadSection (strtab : Option (SectionHeader X)) (sec : SectionHeader X) :
    (loadSection data strtab sec).Errless := by
  refine (errless_loadSectionData sec).bind fun _ => ?_
  cases strtab with
  | none => exact errless_ok _
  | some tab => exact (errless_extractString _ _).bind fun _ => errless_ok _

variable {sections : List (SectionHeader X)}

theorem loadAllocatableSections_eq_panic {strtab : Option (SectionHeader X)} :
    loadAllocatableSections data sections strtab = panic ↔
      ∃ sec ∈ sections, sec.isAlloc = true ∧
        (sec.DataOverflows ∨ ∃ tab ∈ strtab, 2 ^ 64 ≤ tab.offset.toNat + sec.name.toNat) := by
  rw [loadAllocatableSections, traverse_eq_panic_iff_exists fun sec _ => errless_loadSection _ sec]
  simp only [mem_filter, loadSection_eq_panic, and_assoc]

/-! ## Symbols -/

/-- Inside the data only the lookup of the name is left to fail. -/
theorem parseSymbol_inside {offset strtabOffset : ℕ} (h : offset + symbolSize X ≤ data.length) :
    ∃ nameIdx, readLe32 data offset = ok nameIdx ∧ ∃ symbol : String → Symbol X,
      parseSymbol X data offset strtabOffset =
        (do
          let name ← extractString data strtabOffset nameIdx.toNat
          ok (some (symbol name))) := by
  have hlength : data.length < 2 ^ 63 := data.length_lt
  have hstop : offset + symbolSize X < 2 ^ 64 := by omega
  unfold parseSymbol
  rw [add_of_lt hstop, ok_bind, if_neg (Nat.not_lt.2 h)]
  have hindex : ∀ i, offset + i < data.length →
      ∃ b, (index data.bytes (offset + i) : Result _) = ok b := fun i hi => returns_index hi
  cases X with
  | rv32 =>
    change offset + 16 ≤ data.length at h
    obtain ⟨nameIdx, hname⟩ := @returns_readLe32 data offset (by omega)
    obtain ⟨value, hvalue⟩ := @returns_readReg32 .rv32 data (offset + 4) (by omega)
    obtain ⟨size, hsize⟩ := @returns_readReg32 .rv32 data (offset + 8) (by omega)
    obtain ⟨info, hinfo⟩ := hindex 12 (by omega)
    obtain ⟨other, hother⟩ := hindex 13 (by omega)
    obtain ⟨shndx, hshndx⟩ := @returns_readLe16 data (offset + 14) (by omega)
    refine ⟨nameIdx, hname, fun name => ⟨name, value, size, info &&& 0xf, info >>> 4, shndx⟩, ?_⟩
    rw [hname, hvalue, hsize, hinfo, hother, hshndx]
    rfl
  | rv64 =>
    change offset + 24 ≤ data.length at h
    obtain ⟨nameIdx, hname⟩ := @returns_readLe32 data offset (by omega)
    obtain ⟨info, hinfo⟩ := hindex 4 (by omega)
    obtain ⟨other, hother⟩ := hindex 5 (by omega)
    obtain ⟨shndx, hshndx⟩ := @returns_readLe16 data (offset + 6) (by omega)
    obtain ⟨value, hvalue⟩ := @returns_readReg64 .rv64 data (offset + 8) (by omega)
    obtain ⟨size, hsize⟩ := @returns_readReg64 .rv64 data (offset + 16) (by omega)
    refine ⟨nameIdx, hname, fun name => ⟨name, value, size, info &&& 0xf, info >>> 4, shndx⟩, ?_⟩
    rw [hname, hinfo, hother, hshndx, hvalue, hsize]
    rfl

/-- A symbol ends past the last offset, or it is inside the data and its name starts there. -/
def SymbolOverflows (X : Xlen) (data : Slice) (offset strtabOffset : ℕ) : Prop :=
  2 ^ 64 ≤ offset + symbolSize X ∨ offset + symbolSize X ≤ data.length ∧
    ∃ nameIdx, readLe32 data offset = ok nameIdx ∧ 2 ^ 64 ≤ strtabOffset + nameIdx.toNat

theorem parseSymbol_outside {strtabOffset : ℕ} (hstop : offset + symbolSize X < 2 ^ 64)
    (h : data.length < offset + symbolSize X) :
    parseSymbol X data offset strtabOffset = ok none := by
  rw [parseSymbol, add_of_lt hstop, ok_bind, if_pos h]
  rfl

theorem parseSymbol_eq_panic {strtabOffset : ℕ} :
    parseSymbol X data offset strtabOffset = panic ↔
      SymbolOverflows X data offset strtabOffset := by
  unfold SymbolOverflows
  rcases Nat.lt_or_ge (offset + symbolSize X) (2 ^ 64) with hstop | hstop
  · rw [or_iff_right (Nat.not_le.2 hstop)]
    rcases Nat.lt_or_ge data.length (offset + symbolSize X) with hout | hin
    · rw [parseSymbol_outside hstop hout]
      refine iff_of_false (returns_ok _).ne_panic ?_
      omega
    · obtain ⟨nameIdx, hname, symbol, heq⟩ := parseSymbol_inside hin
      rw [heq, bind_eq_panic, extractString_eq_panic, and_iff_right hin, hname]
      constructor
      · rintro (hover | ⟨name, -, h⟩)
        · exact ⟨nameIdx, rfl, hover⟩
        · cases h
      · rintro ⟨nameIdx', hname', hover⟩
        cases hname'
        exact .inl hover
  · rw [parseSymbol, add_of_le hstop]
    exact iff_of_true rfl (.inl hstop)

theorem errless_parseSymbol (offset strtabOffset : ℕ) :
    (parseSymbol X data offset strtabOffset).Errless := by
  rcases Nat.lt_or_ge (offset + symbolSize X) (2 ^ 64) with hstop | hstop
  · rcases Nat.lt_or_ge data.length (offset + symbolSize X) with hout | hin
    · rw [parseSymbol_outside hstop hout]
      exact errless_ok _
    · obtain ⟨nameIdx, -, symbol, heq⟩ := @parseSymbol_inside X data offset strtabOffset hin
      rw [heq]
      exact (errless_extractString _ _).bind fun _ => errless_ok _
  · rw [parseSymbol, add_of_le hstop]
    exact errless_panic

/-- Some symbol of the table overflows.  A table without an entry size has no symbols. -/
def SymbolsOverflow (data : Slice) (sections : List (SectionHeader X)) : Prop :=
  ∃ symtab strtab, symbolTables sections = some (symtab, strtab) ∧ symtab.entsize.toNat ≠ 0 ∧
    ∃ i < symtab.size.toNat / symtab.entsize.toNat,
      SymbolOverflows X data (symtab.offset.toNat + i * symtab.entsize.toNat) strtab.offset.toNat

/-- The body of the loop over the symbols.  The products are at most the size of the table. -/
theorem parseSymbolAt_eq_panic {start size entsize strtabOffset i : ℕ} (hsize : size < 2 ^ 64)
    (hi : i < size / entsize) :
    (do
      let step ← Outcome.mul 64 i entsize
      let offset ← Outcome.add 64 start step
      parseSymbol X data offset strtabOffset) = panic ↔
      SymbolOverflows X data (start + i * entsize) strtabOffset := by
  have hstep : i * entsize < 2 ^ 64 :=
    ((Nat.mul_le_mul_right _ hi.le).trans (Nat.div_mul_le_self _ _)).trans_lt hsize
  rw [mul_of_lt hstep, ok_bind, bind_eq_panic, add_eq_panic]
  constructor
  · rintro (hover | ⟨offset, hoffset, hpanic⟩)
    · exact .inl (hover.trans (Nat.le_add_right _ _))
    · obtain ⟨-, rfl⟩ := add_eq_ok.1 hoffset
      exact parseSymbol_eq_panic.1 hpanic
  · intro hover
    rcases Nat.lt_or_ge (start + i * entsize) (2 ^ 64) with hlt | hge
    · exact .inr ⟨_, add_of_lt hlt, parseSymbol_eq_panic.2 hover⟩
    · exact .inl hge

theorem parseSymbols_eq_panic :
    parseSymbols data sections = panic ↔ SymbolsOverflow data sections := by
  unfold parseSymbols SymbolsOverflow
  cases htables : symbolTables sections with
  | none =>
    refine iff_of_false (returns_ok _).ne_panic ?_
    rintro ⟨symtab, strtab, h, -⟩
    cases h
  | some tables =>
    obtain ⟨symtab, strtab⟩ := tables
    have hsize : symtab.size.toNat < 2 ^ 64 := by
      rw [← toNat_toU64]
      exact (toU64 symtab.size).isLt
    simp only [toNat_toU64]
    by_cases hent : symtab.entsize.toNat = 0
    · rw [if_pos hent]
      refine iff_of_false (returns_ok _).ne_panic ?_
      rintro ⟨_, _, h, hne, -⟩
      cases h
      exact hne hent
    · rw [if_neg hent, bind_eq_panic]
      refine (or_congr_left (traverse_eq_panic_iff_exists fun i _ =>
        (errless_mul _ _ _).bind fun _ =>
        (errless_add _ _ _).bind fun _ => errless_parseSymbol _ _)).trans ?_
      constructor
      · rintro (⟨i, hi, hpanic⟩ | ⟨symbols, -, h⟩)
        · rw [mem_range] at hi
          exact ⟨symtab, strtab, rfl, hent, i, hi, (parseSymbolAt_eq_panic hsize hi).1 hpanic⟩
        · cases h
      · rintro ⟨_, _, h, -, i, hi, hover⟩
        cases h
        exact .inl ⟨i, mem_range.2 hi, (parseSymbolAt_eq_panic hsize hi).2 hover⟩

/-! ## The file -/

/-- A header that is read and has the class of the parser's register width. -/
def Accepted (data : Slice) (header : ElfHeader X) : Prop :=
  parseHeader X data = ok header ∧ (if header.cls = elfClass64 then 64 else 32) = X.value

/-- The program and section headers that the parser finds. -/
structure Scanned (data : Slice) (header : ElfHeader X) (phdrs : List (ProgramHeader X))
    (sections : List (SectionHeader X)) : Prop where
  accepted : Accepted data header
  programHeaders : parseProgramHeaders data header = ok phdrs
  sections : parseAllSections data header = ok sections

variable {header : ElfHeader X}

theorem parseProgramHeaders_eq_panic :
    parseProgramHeaders data header = panic ↔
      0 < header.phnum.toNat ∧ 2 ^ 64 ≤ header.phoff.toNat + programHeaderSize X := by
  rw [← toNat_toU64 header.phoff]
  exact parseTable_eq_panic (toU64 header.phoff).isLt fun _ => returns_readProgramHeader

theorem parseAllSections_eq_panic :
    parseAllSections data header = panic ↔
      0 < header.shnum.toNat ∧ 2 ^ 64 ≤ header.shoff.toNat + sectionHeaderSize X := by
  rw [← toNat_toU64 header.shoff]
  exact parseTable_eq_panic (toU64 header.shoff).isLt fun _ => returns_readSectionHeader

/-- The fields of a file on which `ElfFile::parse` overflows. -/
inductive FileOverflows (X : Xlen) (data : Slice) : Prop
  /-- The first program header ends past the last offset. -/
  | programHeaders {header : ElfHeader X} (haccepted : Accepted data header)
    (hnum : 0 < header.phnum.toNat) (hover : 2 ^ 64 ≤ header.phoff.toNat + programHeaderSize X)
  /-- The first section header ends past the last offset. -/
  | sectionHeaders {header : ElfHeader X} {phdrs : List (ProgramHeader X)}
    (haccepted : Accepted data header) (hphdrs : parseProgramHeaders data header = ok phdrs)
    (hnum : 0 < header.shnum.toNat) (hover : 2 ^ 64 ≤ header.shoff.toNat + sectionHeaderSize X)
  /-- The data of a loaded section is too large or ends past the last offset. -/
  | sectionData {header : ElfHeader X} {phdrs : List (ProgramHeader X)}
    {sections : List (SectionHeader X)} (hscanned : Scanned data header phdrs sections)
    {sec : SectionHeader X} (hsec : sec ∈ sections) (halloc : sec.isAlloc = true)
    (hover : sec.DataOverflows)
  /-- The name of a loaded section starts past the last offset. -/
  | sectionName {header : ElfHeader X} {phdrs : List (ProgramHeader X)}
    {sections : List (SectionHeader X)} (hscanned : Scanned data header phdrs sections)
    {strtab sec : SectionHeader X} (hstrtab : sections[header.shstrndx.toNat]? = some strtab)
    (hsec : sec ∈ sections) (halloc : sec.isAlloc = true)
    (hover : 2 ^ 64 ≤ strtab.offset.toNat + sec.name.toNat)
  /-- A symbol or its name is past the last offset. -/
  | symbols {header : ElfHeader X} {phdrs : List (ProgramHeader X)}
    {sections : List (SectionHeader X)} (hscanned : Scanned data header phdrs sections)
    (hover : SymbolsOverflow data sections)

variable {phdrs : List (ProgramHeader X)}

/-- Behind the headers a panic of either loop is a panic of the parser, since neither has errors. -/
theorem elfFile_parse_of_scanned (hscanned : Scanned data header phdrs sections)
    (hpanic : loadAllocatableSections data sections (findStringTable sections header) = panic ∨
      parseSymbols data sections = panic) : ElfFile.parse X data = panic := by
  unfold ElfFile.parse
  rw [hscanned.accepted.1, ok_bind]
  dsimp only
  rw [if_neg (not_not.2 hscanned.accepted.2), hscanned.programHeaders, ok_bind, hscanned.sections,
    ok_bind]
  rcases hpanic with hpanic | hpanic
  · rw [hpanic, panic_bind]
  · cases hloaded : loadAllocatableSections data sections (findStringTable sections header) with
    | ok loaded => rw [ok_bind, hpanic, panic_bind]
    | err e => exact absurd hloaded (errless_traverse (fun sec _ => errless_loadSection _ sec) e)
    | panic => rw [panic_bind]

theorem elfFile_parse_eq_panic : ElfFile.parse X data = panic ↔ FileOverflows X data := by
  constructor
  · intro hparse
    unfold ElfFile.parse at hparse
    rw [bind_eq_panic, or_iff_right parseHeader_ne_panic] at hparse
    obtain ⟨header, hheader, hpanic⟩ := hparse
    obtain ⟨hcls, hpanic⟩ := guard_eq_panic.1 hpanic
    have haccepted : Accepted data header := ⟨hheader, not_not.1 hcls⟩
    rcases bind_eq_panic.1 hpanic with hpanic | ⟨phdrs, hphdrs, hpanic⟩
    · obtain ⟨hnum, hover⟩ := parseProgramHeaders_eq_panic.1 hpanic
      exact .programHeaders haccepted hnum hover
    rcases bind_eq_panic.1 hpanic with hpanic | ⟨sections, hsections, hpanic⟩
    · obtain ⟨hnum, hover⟩ := parseAllSections_eq_panic.1 hpanic
      exact .sectionHeaders haccepted hphdrs hnum hover
    have hscanned : Scanned data header phdrs sections := ⟨haccepted, hphdrs, hsections⟩
    rcases bind_eq_panic.1 hpanic with hpanic | ⟨loaded, -, hpanic⟩
    · obtain ⟨sec, hsec, halloc, hover | ⟨tab, htab, hover⟩⟩ :=
        loadAllocatableSections_eq_panic.1 hpanic
      · exact .sectionData hscanned hsec halloc hover
      · exact .sectionName hscanned htab hsec halloc hover
    rcases bind_eq_panic.1 hpanic with hpanic | ⟨symbols, -, h⟩
    · exact .symbols hscanned (parseSymbols_eq_panic.1 hpanic)
    · cases h
  · rintro (⟨haccepted, hnum, hover⟩ | ⟨haccepted, hphdrs, hnum, hover⟩ |
      ⟨hscanned, hsec, halloc, hover⟩ | ⟨hscanned, hstrtab, hsec, halloc, hover⟩ |
      ⟨hscanned, hover⟩)
    · unfold ElfFile.parse
      rw [haccepted.1, ok_bind]
      rw [if_neg (not_not.2 haccepted.2), parseProgramHeaders_eq_panic.2 ⟨hnum, hover⟩, panic_bind]
    · unfold ElfFile.parse
      rw [haccepted.1, ok_bind]
      rw [if_neg (not_not.2 haccepted.2), hphdrs, ok_bind,
        parseAllSections_eq_panic.2 ⟨hnum, hover⟩, panic_bind]
    · exact elfFile_parse_of_scanned hscanned
        (.inl (loadAllocatableSections_eq_panic.2 ⟨_, hsec, halloc, .inl hover⟩))
    · exact elfFile_parse_of_scanned hscanned
        (.inl (loadAllocatableSections_eq_panic.2 ⟨_, hsec, halloc, .inr ⟨_, hstrtab, hover⟩⟩))
    · exact elfFile_parse_of_scanned hscanned (.inr (parseSymbols_eq_panic.2 hover))

/-! ## The image -/

/-- A header that passes the checks: its data is in the file and its memory ends below `2 ^ 64`. -/
def ProgramHeader.Valid (data : Slice) (phdr : ProgramHeader X) : Prop :=
  phdr.offset.toNat + phdr.filesz.toNat ≤ data.length ∧
    phdr.vaddr.toNat + phdr.memsz.toNat < 2 ^ 64

theorem checkSegment_eq_ok {phdr phdr' : ProgramHeader X} :
    checkSegment data phdr = ok phdr' ↔ phdr.Valid data ∧ phdr = phdr' := by
  have hlength : data.length < 2 ^ 63 := data.length_lt
  unfold checkSegment ProgramHeader.Valid
  simp only [bind_eq_ok, add_eq_ok, guard_eq_ok, toNat_toU64, pure_eq, ok.injEq, Nat.not_lt,
    Nat.not_le]
  constructor
  · rintro ⟨_, ⟨-, rfl⟩, hin, hfits, rfl⟩
    exact ⟨⟨hin, hfits⟩, rfl⟩
  · rintro ⟨⟨hin, hfits⟩, rfl⟩
    exact ⟨_, ⟨by omega, rfl⟩, hin, hfits, rfl⟩

theorem checkSegment_eq_panic {phdr : ProgramHeader X} :
    checkSegment data phdr = panic ↔ 2 ^ 64 ≤ phdr.offset.toNat + phdr.filesz.toNat := by
  unfold checkSegment
  rw [bind_eq_panic, add_eq_panic, toNat_toU64, toNat_toU64, or_iff_left]
  rintro ⟨stop, -, h⟩
  obtain ⟨-, h⟩ := guard_eq_panic.1 h
  obtain ⟨-, h⟩ := guard_eq_panic.1 h
  cases h

theorem checkOverlapsWith_ne_panic {startI endI : ℕ} (hvalid : ∀ phdr ∈ phdrs, phdr.Valid data) :
    checkOverlapsWith startI endI phdrs ≠ panic := by
  induction phdrs with
  | nil => exact (returns_ok _).ne_panic
  | cons segJ rest ih =>
    have hsum := (hvalid segJ mem_cons_self).2
    rw [checkOverlapsWith, toNat_toU64, toNat_toU64, add_of_lt hsum, ok_bind, ne_eq,
      guard_eq_panic]
    rintro ⟨-, hpanic⟩
    exact ih (fun phdr h => hvalid phdr (mem_cons_of_mem _ h)) hpanic

theorem checkOverlaps_ne_panic (hvalid : ∀ phdr ∈ phdrs, phdr.Valid data) :
    checkOverlaps phdrs ≠ panic := by
  induction phdrs with
  | nil => exact (returns_ok _).ne_panic
  | cons segI rest ih =>
    have hsum := (hvalid segI mem_cons_self).2
    have hrest : ∀ phdr ∈ rest, phdr.Valid data :=
      fun phdr h => hvalid phdr (mem_cons_of_mem _ h)
    rw [checkOverlaps, toNat_toU64, toNat_toU64, add_of_lt hsum, ok_bind]
    exact bind_ne_panic (checkOverlapsWith_ne_panic hrest) fun _ _ => ih hrest

/-- The segment of a header. -/
def segmentOf (data : Slice) (phdr : ProgramHeader X) : MemorySegment X where
  virtualStart := phdr.vaddr
  virtualEnd := X.fromU64 (BitVec.ofNat 64 (phdr.vaddr.toNat + phdr.memsz.toNat))
  data := (data.bytes.drop phdr.offset.toNat).take phdr.filesz.toNat
  flags := phdr.flags

theorem loadSegment_of_valid {phdr : ProgramHeader X} (h : phdr.Valid data) :
    ElfImage.loadSegment data phdr = ok (segmentOf data phdr) := by
  have hlength : data.length < 2 ^ 63 := data.length_lt
  obtain ⟨hin, hfits⟩ := h
  unfold ElfImage.loadSegment
  dsimp only
  rw [toNat_toU64, toNat_toU64, toNat_toU64, toNat_toU64, add_of_lt (by omega), ok_bind,
    slice_of_le (Nat.le_add_right _ _) hin, add_of_lt hfits, Nat.add_sub_cancel_left]
  rfl

/-- The headers of a file that become segments. -/
def loadable (elf : ElfFile X) : List (ProgramHeader X) :=
  elf.programHeaders.filter ProgramHeader.isLoadable

/-- What is known of the loadable headers once they are validated. -/
structure Validated (data : Slice) (phdrs : List (ProgramHeader X)) : Prop where
  valid : ∀ phdr ∈ phdrs, phdr.Valid data
  ne_nil : phdrs ≠ []
  length_le : phdrs.length ≤ maxSegments
  overlaps : checkOverlaps phdrs = ok ()

theorem traverse_checkSegment_eq_ok {phdrs' : List (ProgramHeader X)} :
    Outcome.traverse (checkSegment data) phdrs = ok phdrs' ↔
      (∀ phdr ∈ phdrs, phdr.Valid data) ∧ phdrs' = phdrs := by
  rw [traverse_eq_ok]
  simp only [checkSegment_eq_ok]
  constructor
  · intro h
    induction h with
    | nil => exact ⟨by simp, rfl⟩
    | cons hhead _ ih =>
      obtain ⟨hvalid, rfl⟩ := hhead
      obtain ⟨hrest, rfl⟩ := ih
      exact ⟨forall_mem_cons.2 ⟨hvalid, hrest⟩, rfl⟩
  · rintro ⟨hvalid, rfl⟩
    exact forall₂_same.2 fun phdr h => ⟨hvalid phdr h, rfl⟩

theorem validateSegments_eq_ok {elf : ElfFile X} :
    ElfImage.validateSegments elf data = ok phdrs ↔
      phdrs = loadable elf ∧ Validated data (loadable elf) := by
  unfold ElfImage.validateSegments
  simp only [bind_eq_ok, traverse_checkSegment_eq_ok, guard_eq_ok, Nat.not_lt, pure_eq, ok.injEq]
  constructor
  · rintro ⟨_, ⟨hvalid, rfl⟩, hne, hlength, _, hoverlaps, rfl⟩
    exact ⟨rfl, hvalid, hne, hlength, hoverlaps⟩
  · rintro ⟨rfl, hvalid, hne, hlength, hoverlaps⟩
    exact ⟨_, ⟨hvalid, rfl⟩, hne, hlength, _, hoverlaps, rfl⟩

/-- The first loadable header that does not pass ends, in the file, past the last offset. -/
def SegmentOverflows (data : Slice) (phdrs : List (ProgramHeader X)) : Prop :=
  ∃ before phdr after, phdrs = before ++ phdr :: after ∧ (∀ phdr ∈ before, phdr.Valid data) ∧
    2 ^ 64 ≤ phdr.offset.toNat + phdr.filesz.toNat

theorem validateSegments_eq_panic {elf : ElfFile X} :
    ElfImage.validateSegments elf data = panic ↔ SegmentOverflows data (loadable elf) := by
  unfold ElfImage.validateSegments
  rw [bind_eq_panic, or_iff_left]
  · rw [traverse_eq_panic]
    simp only [checkSegment_eq_ok, checkSegment_eq_panic, exists_and_left, exists_eq', and_true]
    rfl
  · rintro ⟨phdrs, hphdrs, hpanic⟩
    obtain ⟨hvalid, rfl⟩ := traverse_checkSegment_eq_ok.1 hphdrs
    obtain ⟨-, hpanic⟩ := guard_eq_panic.1 hpanic
    obtain ⟨-, hpanic⟩ := guard_eq_panic.1 hpanic
    rcases bind_eq_panic.1 hpanic with hpanic | ⟨_, -, h⟩
    · exact checkOverlaps_ne_panic hvalid hpanic
    · cases h

/-- What `ElfImage::parse` returns: the segments of the loadable headers, which are valid. -/
theorem parse_eq_ok {image : ElfImage X} :
    ElfImage.parse X data = ok image ↔ ∃ elf, ElfFile.parse X data = ok elf ∧
      Validated data (loadable elf) ∧
      image = ⟨elf.entryPoint, elf.eFlags, (loadable elf).map (segmentOf data), elf.sections,
        elf.symbols⟩ := by
  unfold ElfImage.parse
  simp only [bind_eq_ok, validateSegments_eq_ok, pure_eq, ok.injEq]
  constructor
  · rintro ⟨elf, helf, _, ⟨rfl, hvalidated⟩, segments, hsegments, rfl⟩
    rw [ElfImage.loadSegments, traverse_of_forall
      fun phdr h => loadSegment_of_valid (hvalidated.valid phdr h)] at hsegments
    cases hsegments
    exact ⟨elf, helf, hvalidated, rfl⟩
  · rintro ⟨elf, helf, hvalidated, rfl⟩
    exact ⟨elf, helf, _, ⟨rfl, hvalidated⟩, _, traverse_of_forall
      fun phdr h => loadSegment_of_valid (hvalidated.valid phdr h), rfl⟩

/-- The fields of a file on which `ElfImage::parse` overflows. -/
inductive ImageOverflows (X : Xlen) (data : Slice) : Prop
  | file (h : FileOverflows X data)
  | segment {elf : ElfFile X} (helf : ElfFile.parse X data = ok elf)
    (h : SegmentOverflows data (loadable elf))

/-- The parser returns or fails on exactly the files without overflowing fields. -/
theorem parse_ne_panic_iff : ElfImage.parse X data ≠ panic ↔ ¬ ImageOverflows X data := by
  refine not_congr ?_
  unfold ElfImage.parse
  rw [bind_eq_panic, elfFile_parse_eq_panic]
  constructor
  · rintro (hfile | ⟨elf, helf, hpanic⟩)
    · exact .file hfile
    rcases bind_eq_panic.1 hpanic with hpanic | ⟨phdrs, hphdrs, hpanic⟩
    · exact .segment helf (validateSegments_eq_panic.1 hpanic)
    · -- the slices of validated headers are in range
      obtain ⟨rfl, hvalidated⟩ := validateSegments_eq_ok.1 hphdrs
      rw [ElfImage.loadSegments,
        traverse_of_forall fun phdr h => loadSegment_of_valid (hvalidated.valid phdr h)] at hpanic
      cases hpanic
  · rintro (hfile | ⟨helf, hover⟩)
    · exact .inl hfile
    · refine .inr ⟨_, helf, ?_⟩
      rw [validateSegments_eq_panic.2 hover, panic_bind]

/-- A 64-bit header whose single program header is at the last offset. -/
def farProgramHeader : Slice where
  bytes := [0x7F, 0x45, 0x4C, 0x46, 2, 1, 1, 0] ++ replicate 24 0 ++ replicate 8 0xFF ++
    replicate 16 0 ++ [1, 0] ++ replicate 6 0
  length_lt := by decide

/-- The sum of `phoff` and the size of a program header overflows. -/
theorem parse_farProgramHeader : ElfImage.parse .rv64 farProgramHeader = panic := by
  decide +kernel

end Rvr.Elf

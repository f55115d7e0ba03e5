import Lilith.RamFs.Model

/-! The format of an image, a byte string that says nothing of how it is written or read, and the
tool that writes it. -/
namespace Lilith.RamFs
open Bytes

variable {files : List File} {image pre l src : List UInt8} {total lo hi off n : ℕ}

/-- The next multiple of the page size. -/
def pageUp (n : ℕ) : ℕ := (n + 4095) / 4096 * 4096

/-- The table of the files if the contents of the first one are at `off`. -/
def layout (off : ℕ) : List File → List TableEntry
  | [] => []
  | (name,data) :: files => ⟨name,off,data.length⟩ :: layout (pageUp (off + data.length)) files

def layoutEnd (off : ℕ) : List File → ℕ
  | [] => off
  | (_,data) :: files => layoutEnd (pageUp (off + data.length)) files

def header (n : ℕ) : List UInt8 := MAGIC ++ toLeBytes 8 n

def entryBytes (e : TableEntry) : List UInt8 :=
  pad 32 (asBytes e.name) ++ toLeBytes 8 e.offset ++ toLeBytes 8 e.size ++ zeros 16

def table (es : List TableEntry) : List UInt8 := (es.map entryBytes).flatten

def contents (files : List File) : List UInt8 := (files.map fun f => pad (pageUp f.2.length) f.2).flatten

def dataStart (files : List File) : ℕ := pageUp (16 + 64 * files.length)

/-- The format of an image: the header, the table, and from the next page on the contents of the
files, each up to the end of a page. -/
def format (files : List File) : List UInt8 :=
  pad (dataStart files) (header files.length ++ table (layout (dataStart files) files)) ++ contents files

lemma le_pageUp (n : ℕ) : n ≤ pageUp n := by
  unfold pageUp
  omega

lemma pageUp_add (h : 4096 ∣ off) (n : ℕ) : pageUp (off + n) = off + pageUp n := by
  obtain ⟨k,rfl⟩ := h
  unfold pageUp
  omega

lemma dvd_pageUp (n : ℕ) : 4096 ∣ pageUp n := ⟨(n + 4095) / 4096,Nat.mul_comm _ _⟩

/-- The mask of `align_up` clears the low twelve bits. -/
lemma and_mask (v : ℕ) (h : v < 2 ^ 64) : v &&& (2 ^ 64 - 1 - 4095) = v / 4096 * 4096 := by
  have hmask : 2 ^ 64 - 1 - 4095 = (2 ^ 52 - 1) * 2 ^ 12 := by norm_num
  rw [hmask, show 4096 = 2 ^ 12 by norm_num]
  apply Nat.eq_of_testBit_eq
  intro i
  rw [Nat.testBit_and, Nat.testBit_mul_two_pow, Nat.testBit_mul_two_pow, Nat.testBit_two_pow_sub_one,
    Nat.testBit_div_two_pow]
  by_cases h1 : 12 ≤ i
  · by_cases h2 : i < 64
    · simp [h1, show i - 12 < 52 by omega]
    · have : v.testBit i = false := Nat.testBit_lt_two_pow (h.trans_le (Nat.pow_le_pow_right (by norm_num) (by omega)))
      simp [h1, this]
  · simp [h1]

lemma alignUp_ok (h : alignUp lo PAGE_SIZE = .ok n) : n = pageUp lo ∧ lo + 4096 < 2 ^ 64 := by
  unfold alignUp checkedAdd at h
  by_cases hlt : lo + PAGE_SIZE < 2 ^ 64
  · rw [if_pos hlt] at h
    simp only [bind, Except.bind, pure, Except.pure, Except.ok.injEq] at h
    unfold PAGE_SIZE at h hlt
    rw [show 4096 - 1 = 4095 by norm_num, and_mask _ (by omega)] at h
    exact ⟨by rw [← h, pageUp]; omega,hlt⟩
  · rw [if_neg hlt] at h
    simp [bind, Except.bind] at h

lemma computeOffsets_ok {es : List TableEntry} (h : computeOffsets off files = .ok (es,total)) :
    es = layout off files ∧ total = layoutEnd off files := by
  induction files generalizing off es total with
  | nil =>
    obtain ⟨rfl,rfl⟩ : [] = es ∧ off = total := by simpa [computeOffsets] using h
    exact ⟨rfl,rfl⟩
  | cons f files ih =>
    obtain ⟨name,data⟩ := f
    simp only [computeOffsets] at h
    obtain ⟨a,ha,h⟩ := bind_ok h
    obtain ⟨b,hb,h⟩ := bind_ok h
    obtain ⟨⟨es',total'⟩,hes,h⟩ := bind_ok h
    obtain ⟨rfl,_⟩ := checkedAdd_ok ha
    obtain ⟨rfl,_⟩ := alignUp_ok hb
    obtain ⟨rfl,rfl⟩ := ih hes
    simp only [pure, Except.pure, Except.ok.injEq, Prod.mk.injEq] at h
    exact ⟨h.1.symm,h.2.symm⟩

/-- A copy to a place behind all that was written before. -/
lemma copy_pad (h1 : pre.length ≤ lo) (h2 : lo + src.length = hi) (h3 : hi ≤ total) :
    copyFromSlice (pad total pre) lo hi src = .ok (pad total (pad lo pre ++ src)) := by
  have hlen : (pad total pre).length = total := length_pad (by omega)
  unfold copyFromSlice
  rw [assert_of (by omega), assert_of (by omega), splice_pad h1 (by omega)]
  rfl

@[simp] lemma length_header (n : ℕ) : (header n).length = 16 := by simp [header, MAGIC]

lemma length_entryBytes {e : TableEntry} (h : (asBytes e.name).length ≤ 32) : (entryBytes e).length = 64 := by
  simp [entryBytes, length_pad h]

lemma length_table {es : List TableEntry} (h : ∀ e ∈ es, (asBytes e.name).length ≤ 32) :
    (table es).length = 64 * es.length := by
  induction es with
  | nil => rfl
  | cons e es ih =>
    have he := length_entryBytes (h e (by simp))
    have hes := ih fun e' he' => h e' (by simp [he'])
    simp only [table] at hes
    simp only [table, List.map_cons, List.flatten_cons, List.length_append, he, hes, List.length_cons]
    omega

/-- The three copies for one line of the table, and the reserved bytes. -/
lemma writeTable_cons {e : TableEntry} {es : List TableEntry} {i : ℕ} (hpre : pre.length = 16 + 64 * i)
    (he : (asBytes e.name).length ≤ 32) (ht : 16 + 64 * (i + 1) ≤ total) :
    writeTable (pad total pre) i (e :: es) = writeTable (pad total (pre ++ entryBytes e)) (i + 1) es := by
  have hbase : HEADER_SIZE + i * ENTRY_SIZE = pre.length := by
    rw [hpre, HEADER_SIZE, ENTRY_SIZE, Nat.mul_comm]
  have h1 : copyFromSlice (pad total pre) pre.length (pre.length + (asBytes e.name).length) (asBytes e.name) =
      .ok (pad total (pre ++ asBytes e.name)) := by
    rw [copy_pad (le_refl pre.length) rfl (by omega), pad_eq_self (le_refl pre.length)]
  have h2 : copyFromSlice (pad total (pre ++ asBytes e.name)) (pre.length + 32) (pre.length + 40)
      (toLeBytes 8 e.offset) = .ok (pad total (pre ++ pad 32 (asBytes e.name) ++ toLeBytes 8 e.offset)) := by
    rw [copy_pad (by simpa using he) (by simp) (by omega), pad_append he]
  have h3 : copyFromSlice (pad total (pre ++ pad 32 (asBytes e.name) ++ toLeBytes 8 e.offset))
      (pre.length + 40) (pre.length + 48) (toLeBytes 8 e.size) =
      .ok (pad total (pre ++ pad 32 (asBytes e.name) ++ toLeBytes 8 e.offset ++ toLeBytes 8 e.size)) := by
    have hlen : (pre ++ pad 32 (asBytes e.name) ++ toLeBytes 8 e.offset).length = pre.length + 40 := by
      simp [length_pad he]
    rw [copy_pad hlen.le (by simp) (by omega), pad_eq_self hlen.ge]
  have hlen : (pre ++ pad 32 (asBytes e.name) ++ toLeBytes 8 e.offset ++ toLeBytes 8 e.size).length =
      pre.length + 48 := by
    simp [length_pad he]
  have hres : pre ++ entryBytes e = pad (pre.length + 64)
      (pre ++ pad 32 (asBytes e.name) ++ toLeBytes 8 e.offset ++ toLeBytes 8 e.size) := by
    rw [pad, hlen, show pre.length + 64 - (pre.length + 48) = 16 by omega]
    simp [entryBytes]
  rw [hres, pad_pad (by omega) (by omega), writeTable]
  simp only [hbase, h1, h2, h3, bind, Except.bind]

lemma writeTable_ok {es : List TableEntry} {i : ℕ} (hpre : pre.length = 16 + 64 * i)
    (he : ∀ e ∈ es, (asBytes e.name).length ≤ 32) (ht : 16 + 64 * (i + es.length) ≤ total) :
    writeTable (pad total pre) i es = .ok (pad total (pre ++ table es)) := by
  induction es generalizing pre i with
  | nil => simp [writeTable, table]
  | cons e es ih =>
    rw [List.length_cons] at ht
    rw [writeTable_cons hpre (he e (by simp)) (by omega), ih _ (fun e' h => he e' (by simp [h])) (by omega)]
    · simp [table]
    · rw [List.length_append, length_entryBytes (he e (by simp)), hpre]
      omega

lemma length_contents (files : List File) (h : 4096 ∣ off) :
    off + (contents files).length = layoutEnd off files := by
  induction files generalizing off with
  | nil => rfl
  | cons f files ih =>
    obtain ⟨name,data⟩ := f
    have hnext := ih (dvd_pageUp (off + data.length))
    rw [pageUp_add h] at hnext
    rw [layoutEnd, pageUp_add h, ← hnext]
    simp only [contents, List.map_cons, List.flatten_cons, List.length_append, length_pad (le_pageUp data.length)]
    omega

lemma writeData_ok (hoff : 4096 ∣ off) (hpre : pre.length ≤ off) (ht : layoutEnd off files ≤ total) :
    writeData (pad total pre) ((layout off files).zip files) = .ok (pad total (pad off pre ++ contents files)) := by
  induction files generalizing off pre with
  | nil =>
    have : off ≤ total := ht
    simp [layout, writeData, contents, pad_pad hpre this]
  | cons f files ih =>
    obtain ⟨name,data⟩ := f
    have hlen := length_contents files (dvd_pageUp (off + data.length))
    have hend : layoutEnd (pageUp (off + data.length)) files ≤ total := ht
    have hnext := le_pageUp (off + data.length)
    have hpad : pad (pageUp (off + data.length)) (pad off pre ++ data) =
        pad off pre ++ pad (pageUp data.length) data := by
      rw [pageUp_add hoff]
      have happ : pad ((pad off pre).length + pageUp data.length) (pad off pre ++ data) = _ :=
        pad_append (le_pageUp data.length)
      rwa [length_pad hpre] at happ
    simp only [layout, List.zip_cons_cons, writeData, copy_pad hpre rfl (show off + data.length ≤ total by omega),
      bind, Except.bind]
    rw [ih (dvd_pageUp _) (by rw [List.length_append, length_pad hpre]; exact hnext) hend, hpad]
    simp [contents]

/-- The names that the checks of the tool let pass. -/
structure NamesOk (files : List File) : Prop where
  short : ∀ f ∈ files, (asBytes f.1).length ≤ 32
  distinct : (files.map Prod.fst).Nodup

lemma checkNames_ok {seen : List String} : checkNames seen files = .ok () ↔
    NamesOk files ∧ ∀ f ∈ files, f.1 ∉ seen := by
  induction files generalizing seen with
  | nil => simp [checkNames, NamesOk.mk]
  | cons f files ih =>
    obtain ⟨name,data⟩ := f
    unfold checkNames
    by_cases h1 : NAME_LEN < (asBytes name).length
    · rw [if_pos h1]
      refine iff_of_false (by simp) fun h => ?_
      have := h.1.short (name,data) (by simp)
      exact absurd h1 (Nat.not_lt.mpr this)
    · by_cases h2 : name ∈ seen
      · rw [if_neg h1, if_pos h2]
        exact iff_of_false (by simp) fun h => h.2 (name,data) (by simp) h2
      · rw [if_neg h1, if_neg h2, ih]
        constructor
        · rintro ⟨⟨hs,hd⟩,hn⟩
          refine ⟨⟨fun f hf => ?_,?_⟩,fun f hf => ?_⟩
          · rcases List.mem_cons.mp hf with rfl | hf
            · exact Nat.not_lt.mp h1
            · exact hs f hf
          · rw [List.map_cons, List.nodup_cons]
            refine ⟨fun hm => ?_,hd⟩
            obtain ⟨f,hf,rfl⟩ := List.mem_map.mp hm
            exact hn f hf (by simp)
          · rcases List.mem_cons.mp hf with rfl | hf
            · exact h2
            · exact fun hm => hn f hf (by simp [hm])
        · rintro ⟨⟨hs,hd⟩,hn⟩
          rw [List.map_cons, List.nodup_cons] at hd
          refine ⟨⟨fun f hf => hs f (by simp [hf]),hd.2⟩,fun f hf hm => ?_⟩
          rcases List.mem_cons.mp hm with hm | hm
          · exact hd.1 (List.mem_map.mpr ⟨f,hf,hm⟩)
          · exact hn f (by simp [hf]) hm

lemma layout_names (off : ℕ) (files : List File) : (layout off files).map TableEntry.name = files.map Prod.fst := by
  induction files generalizing off with
  | nil => rfl
  | cons f files ih => simp [layout, ih]

lemma length_layout (off : ℕ) (files : List File) : (layout off files).length = files.length := by
  rw [← List.length_map TableEntry.name, layout_names, List.length_map]

lemma layout_short (h : NamesOk files) {e : TableEntry} (he : e ∈ layout off files) : (asBytes e.name).length ≤ 32 := by
  have hm : e.name ∈ files.map Prod.fst := layout_names off files ▸ List.mem_map_of_mem he
  obtain ⟨f,hf,hn⟩ := List.mem_map.mp hm
  exact hn ▸ h.short f hf

lemma dvd_dataStart (files : List File) : 4096 ∣ dataStart files := dvd_pageUp _

lemma length_front (h : NamesOk files) :
    (header files.length ++ table (layout (dataStart files) files)).length = 16 + 64 * files.length := by
  rw [List.length_append, length_header, length_table fun e => layout_short h, length_layout]

lemma front_le (files : List File) : 16 + 64 * files.length ≤ dataStart files := le_pageUp _

lemma length_format (h : NamesOk files) : (format files).length = layoutEnd (dataStart files) files := by
  rw [← length_contents files (dvd_dataStart files), format, List.length_append,
    length_pad (length_front h ▸ front_le files)]

/-- What the tool writes. -/
lemma write_ok (h : NamesOk files) :
    (do let image ← copyFromSlice (zeros (format files).length) 0 8 MAGIC
        let image ← copyFromSlice image 8 16 (toLeBytes 8 files.length)
        let image ← writeTable image 0 (layout (dataStart files) files)
        writeData image ((layout (dataStart files) files).zip files)) = .ok (format files) := by
  have hend := length_format h
  have hstart := length_contents files (dvd_dataStart files)
  have hle := front_le files
  set total := (format files).length with htotal
  have h1 : copyFromSlice (pad total []) 0 8 MAGIC = .ok (pad total (pad 0 [] ++ MAGIC)) :=
    copy_pad (le_refl 0) rfl (by omega)
  have h2 : copyFromSlice (pad total MAGIC) 8 16 (toLeBytes 8 files.length) =
      .ok (pad total (header files.length)) := by
    rw [copy_pad (by simp [MAGIC]) (by simp) (by omega), pad_eq_self (show 8 ≤ MAGIC.length from le_refl 8), header]
  have h3 : writeTable (pad total (header files.length)) 0 (layout (dataStart files) files) =
      .ok (pad total (header files.length ++ table (layout (dataStart files) files))) :=
    writeTable_ok (length_header files.length) (fun e => layout_short h) (by rw [length_layout]; omega)
  have h4 : writeData (pad total (header files.length ++ table (layout (dataStart files) files)))
      ((layout (dataStart files) files).zip files) = .ok (pad total (format files)) :=
    writeData_ok (dvd_dataStart files) (length_front h ▸ hle) (by omega)
  rw [pad_eq_self htotal.le] at h4
  simp only [show zeros total = pad total [] from rfl, h1, bind, Except.bind,
    show pad 0 [] ++ MAGIC = MAGIC from rfl, h2, h3, h4]

lemma alignUp_eq (h : lo + 4096 < 2 ^ 64) : alignUp lo PAGE_SIZE = .ok (pageUp lo) := by
  have hmask := and_mask (lo + 4096 - 1) (by omega)
  unfold alignUp PAGE_SIZE
  simp only [checkedAdd_of_lt h, bind, Except.bind, pure, Except.pure]
  rw [show 4096 - 1 = 4095 by norm_num, hmask, pageUp]
  congr 2

lemma le_layoutEnd (off : ℕ) (files : List File) : off ≤ layoutEnd off files := by
  induction files generalizing off with
  | nil => exact le_refl off
  | cons f files ih =>
    have h1 := le_pageUp (off + f.2.length)
    have h2 := ih (pageUp (off + f.2.length))
    have : layoutEnd off (f :: files) = layoutEnd (pageUp (off + f.2.length)) files := rfl
    omega

lemma computeOffsets_eq (h : layoutEnd off files < 2 ^ 63) :
    computeOffsets off files = .ok (layout off files,layoutEnd off files) := by
  induction files generalizing off with
  | nil => rfl
  | cons f files ih =>
    obtain ⟨name,data⟩ := f
    have hend : layoutEnd (pageUp (off + data.length)) files < 2 ^ 63 := h
    have h1 := le_layoutEnd (pageUp (off + data.length)) files
    have h2 := le_pageUp (off + data.length)
    simp only [computeOffsets, checkedAdd_of_lt (show off + data.length < 2 ^ 64 by omega),
      alignUp_eq (show off + data.length + 4096 < 2 ^ 64 by omega), ih hend, bind, Except.bind, pure, Except.pure]
    rfl

/-- The image, when the names are right. -/
lemma buildImage_eq_ok (h : NamesOk files) :
    buildImage files = .ok image ↔ (format files).length < 2 ^ 63 ∧ image = format files := by
  have hend := length_format h
  constructor
  · intro hb
    unfold buildImage at hb
    obtain ⟨a,ha,hb⟩ := bind_ok hb
    obtain ⟨b,hb',hb⟩ := bind_ok hb
    obtain ⟨c,hc,hb⟩ := bind_ok hb
    obtain ⟨⟨es,total⟩,hes,hb⟩ := bind_ok hb
    obtain ⟨img,himg,hb⟩ := bind_ok hb
    obtain rfl : a = 64 * files.length := by
      unfold checkedMul at ha
      split_ifs at ha
      exact (Except.ok.inj ha).symm
    obtain ⟨rfl,_⟩ := checkedAdd_ok hb'
    obtain ⟨rfl,_⟩ := alignUp_ok hc
    obtain ⟨rfl,rfl⟩ := computeOffsets_ok hes
    have hsize : (format files).length < 2 ^ 63 ∧ img = zeros (format files).length := by
      rw [hend]
      simp only [zeroVec, assert, bind, Except.bind] at himg
      split_ifs at himg with hlt
      exact ⟨hlt,(Except.ok.inj himg).symm⟩
    obtain ⟨hlt,rfl⟩ := hsize
    exact ⟨hlt,Except.ok.inj (hb.symm.trans (write_ok h))⟩
  · rintro ⟨hlt,rfl⟩
    have h1 := le_layoutEnd (dataStart files) files
    have h2 := front_le files
    have hmul : checkedMul ENTRY_SIZE files.length = .ok (64 * files.length) := if_pos (by
      simp only [ENTRY_SIZE]
      omega)
    have hadd : checkedAdd HEADER_SIZE (64 * files.length) = .ok (16 + 64 * files.length) :=
      checkedAdd_of_lt (by simp only [HEADER_SIZE]; omega)
    have hal := alignUp_eq (show 16 + 64 * files.length + 4096 < 2 ^ 64 by omega)
    have hoff := computeOffsets_eq (hend ▸ hlt)
    have hzero : zeroVec (layoutEnd (dataStart files) files) = .ok (zeros (format files).length) := by
      rw [← hend, zeroVec, assert_of hlt]
      rfl
    rw [← dataStart] at hal
    rw [← write_ok h]
    simp only [buildImage, hmul, hadd, hal, hoff, hzero, bind, Except.bind]

/-- The tool accepts files with short, distinct names whose image is not too large for its memory,
and writes the format. -/
theorem fsTool_eq_ok : fsTool files = .ok image ↔
    files ≠ [] ∧ NamesOk files ∧ (format files).length < 2 ^ 63 ∧ image = format files := by
  unfold fsTool
  by_cases hne : files = []
  · simp [hne]
  · rw [if_neg hne]
    by_cases hn : NamesOk files
    · have hcheck : checkNames [] files = .ok () := checkNames_ok.mpr ⟨hn,by simp⟩
      have hb : buildImage files = .ok image ↔ _ := buildImage_eq_ok hn
      simp only [hcheck, bind, Except.bind, hne, hn, ne_eq, not_false_eq_true, true_and]
      rw [← hb]
      cases buildImage files <;> simp [Except.mapError]
    · refine iff_of_false (fun h => ?_) fun h => hn h.2.1
      obtain ⟨_,hcheck,_⟩ := bind_ok h
      exact hn (checkNames_ok.mp hcheck).1

end Lilith.RamFs

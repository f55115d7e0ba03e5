import Lilith.RamFs.Format

/-! The kernel reads back what the tool wrote. -/
namespace Lilith.RamFs
open Bytes

variable {files : List File} {image pre l src : List UInt8} {off n : ℕ} {e : TableEntry}

lemma mapM_eq {α β : Type} {f : α → Except Fault β} {g : α → β} {as : List α} (h : ∀ a ∈ as, f a = .ok (g a)) :
    as.mapM f = .ok (as.map g) := by
  induction as with
  | nil => rfl
  | cons a as ih =>
    rw [List.mapM_cons, h a (by simp), ih fun b hb => h b (by simp [hb])]
    rfl

/-- An entry as the reader sees it. -/
def TableEntry.toFsEntry (e : TableEntry) : FsEntry := ⟨pad 32 (asBytes e.name),e.offset,e.size⟩

lemma slice_zero_append (l l' : List UInt8) (h : l.length = n) : slice (l ++ l') 0 n = l := h ▸ slice_self l l'

lemma slice_append (l l' l'' : List UInt8) {a : ℕ} (h : l.length = a) (h' : l'.length = n) :
    slice (l ++ l' ++ l'') a n = l' := by
  rw [List.append_assoc, slice_append_right h.le, h, Nat.sub_self]
  exact slice_zero_append l' l'' h'

lemma nFiles_format (hn : files.length < 2 ^ 64) : (⟨format files⟩ : Reader).nFiles = .ok files.length := by
  have hlen : 16 ≤ (format files).length := by
    have := front_le files
    simp only [format, List.length_append, pad, length_header, length_zeros]
    omega
  have hslice : slice (format files) 8 8 = toLeBytes 8 files.length := by
    rw [format, pad, header, List.append_assoc, List.append_assoc]
    exact slice_append _ _ _ rfl (length_toLeBytes 8 _)
  simp only [Reader.nFiles, Reader.read, if_pos (show 8 + 8 ≤ (format files).length by omega), hslice, bind,
    Except.bind, pure, Except.pure, fromLeBytes_toLeBytes 8 _ (show files.length < 256 ^ 8 by omega)]

lemma slice_entryBytes {e : TableEntry} (h : (asBytes e.name).length ≤ 32) :
    slice (entryBytes e) 0 32 = pad 32 (asBytes e.name) ∧ slice (entryBytes e) 32 8 = toLeBytes 8 e.offset ∧
      slice (entryBytes e) 40 8 = toLeBytes 8 e.size := by
  have hp := length_pad h
  refine ⟨?_,?_,?_⟩
  · rw [entryBytes, List.append_assoc, List.append_assoc]
    exact slice_zero_append _ _ hp
  · rw [entryBytes, List.append_assoc]
    exact slice_append _ _ _ hp (length_toLeBytes 8 _)
  · exact slice_append _ _ _ (by simp [hp]) (length_toLeBytes 8 _)

lemma entry_format (h : NamesOk files) {i : ℕ} {e : TableEntry}
    (hi : (layout (dataStart files) files)[i]? = some e) (ho : e.offset < 2 ^ 64) (hs : e.size < 2 ^ 64) :
    (⟨format files⟩ : Reader).entry i = .ok e.toFsEntry := by
  have hlt : i < files.length := by
    have := (List.getElem?_eq_some_iff.mp hi).1
    rwa [length_layout] at this
  have hshort := layout_short h (List.mem_of_getElem? hi)
  have hle := front_le files
  have hlen : 16 + 64 * files.length ≤ (format files).length := by
    rw [format, List.length_append, length_pad (length_front h ▸ hle)]
    omega
  have hblocks : ∀ b ∈ (layout (dataStart files) files).map entryBytes, b.length = 64 := fun b hb => by
    obtain ⟨e',he',rfl⟩ := List.mem_map.mp hb
    exact length_entryBytes (layout_short h he')
  have htable : slice (table (layout (dataStart files) files)) (64 * i) 64 = entryBytes e :=
    slice_flatten hblocks (by simp [hi])
  have hbound : 64 * i + 64 ≤ (table (layout (dataStart files) files)).length := by
    rw [length_table fun e => layout_short h, length_layout]
    omega
  have hslice : slice (format files) (16 + 64 * i) 64 = entryBytes e := by
    rw [format, pad, List.append_assoc, List.append_assoc, slice_append_right (by simp), length_header,
      Nat.add_sub_cancel_left, slice_append_left hbound]
    exact htable
  obtain ⟨h1,h2,h3⟩ := slice_entryBytes hshort
  simp only [Reader.entry, Reader.read, ENTRY_SIZE, if_pos (show 16 + 64 * i + 64 ≤ (format files).length by omega),
    hslice, h1, h2, h3, bind, Except.bind, pure, Except.pure, fromLeBytes_toLeBytes 8 _ (show e.offset < 256 ^ 8 by omega),
    fromLeBytes_toLeBytes 8 _ (show e.size < 256 ^ 8 by omega), TableEntry.toFsEntry]

/-- Each file lies behind the one before it, and all of them lie in the image. -/
lemma layout_bounds (off : ℕ) (files : List File) :
    (layout off files).Pairwise (fun a b => a.offset + a.size ≤ b.offset) ∧
      ∀ e ∈ layout off files, off ≤ e.offset ∧ e.offset + e.size ≤ layoutEnd off files := by
  induction files generalizing off with
  | nil => simp [layout]
  | cons f files ih =>
    obtain ⟨name,data⟩ := f
    obtain ⟨hp,hb⟩ := ih (pageUp (off + data.length))
    have h1 := le_pageUp (off + data.length)
    have h2 := le_layoutEnd (pageUp (off + data.length)) files
    simp only [layout, layoutEnd, List.pairwise_cons, List.mem_cons]
    refine ⟨⟨fun e he => ?_,hp⟩,fun e he => ?_⟩
    · exact h1.trans (hb e he).1
    · rcases he with rfl | he
      · exact ⟨le_refl _,h1.trans h2⟩
      · have := hb e he
        exact ⟨by omega,this.2⟩

/-- The contents of a file are where the table says. -/
lemma slice_contents (hoff : 4096 ∣ off) (hpre : pre.length = off) {i : ℕ} {f : File}
    (he : (layout off files)[i]? = some e) (hf : files[i]? = some f) :
    slice (pre ++ contents files) e.offset e.size = f.2 := by
  induction files generalizing off pre i with
  | nil => simp at hf
  | cons g files ih =>
    obtain ⟨name,data⟩ := g
    have hcons : contents ((name,data) :: files) = pad (pageUp data.length) data ++ contents files := by
      simp [contents]
    cases i with
    | zero =>
      obtain rfl : ⟨name,off,data.length⟩ = e := by simpa [layout] using he
      obtain rfl : (name,data) = f := by simpa using hf
      rw [hcons, pad, List.append_assoc, ← List.append_assoc]
      exact slice_append _ _ _ hpre rfl
    | succ i =>
      rw [hcons, ← List.append_assoc]
      refine ih (dvd_pageUp (off + data.length)) ?_ (by simpa [layout] using he) (by simpa using hf)
      rw [List.length_append, length_pad (le_pageUp _), hpre, pageUp_add hoff]

lemma layout_get (off : ℕ) {i : ℕ} {f : File} (hf : files[i]? = some f) :
    ∃ e, (layout off files)[i]? = some e ∧ e.name = f.1 ∧ e.size = f.2.length := by
  induction files generalizing off i with
  | nil => simp at hf
  | cons g files ih =>
    obtain ⟨name,data⟩ := g
    cases i with
    | zero =>
      obtain rfl : (name,data) = f := by simpa using hf
      exact ⟨_,rfl,rfl,rfl⟩
    | succ i => exact ih _ (by simpa using hf)

/-- The name ends at the padding, of which there is none behind a name of 32 bytes. -/
lemma entryName_eq (hs : (asBytes e.name).length ≤ 32) (h0 : 0 ∉ asBytes e.name) :
    Reader.entryName e.toFsEntry = .ok e.name := by
  have hidx : ((pad 32 (asBytes e.name)).findIdx? (· == 0)).getD 32 = (asBytes e.name).length := by
    have hnone : (asBytes e.name).findIdx? (· == 0) = none := by
      rw [List.findIdx?_eq_none_iff]
      intro b hb
      simpa using fun hz : b = 0 => h0 (hz ▸ hb)
    rw [pad, List.findIdx?_append, hnone, zeros, List.findIdx?_replicate]
    by_cases hlt : (asBytes e.name).length < 32
    · simp [show 0 < 32 - (asBytes e.name).length by omega]
    · simp [show 32 - (asBytes e.name).length = 0 by omega]
      omega
  have htake : (pad 32 (asBytes e.name)).take (asBytes e.name).length = asBytes e.name := by
    rw [pad, List.take_left]
  have hutf : String.fromUTF8? ⟨⟨asBytes e.name⟩⟩ = some e.name := by
    have hb : (⟨⟨asBytes e.name⟩⟩ : ByteArray) = e.name.toByteArray := rfl
    rw [hb, String.fromUTF8?, dif_pos e.name.isValidUTF8]
    rfl
  simp only [Reader.entryName, TableEntry.toFsEntry, hidx, htake, hutf]

section
variable (h : NamesOk files) (hsize : (format files).length < 2 ^ 63)
include h hsize

lemma entries_format : (⟨format files⟩ : Reader).entries =
    .ok ((layout (dataStart files) files).map TableEntry.toFsEntry) := by
  set es := layout (dataStart files) files with hes
  have hlen : es.length = files.length := length_layout _ _
  have hend := length_format h
  have hle := front_le files
  have hstart := le_layoutEnd (dataStart files) files
  have hone : ∀ i ∈ List.range files.length, (⟨format files⟩ : Reader).entry i =
      .ok ((es[i]?.map TableEntry.toFsEntry).getD ⟨[],0,0⟩) := fun i hi => by
    have hi : i < es.length := hlen ▸ List.mem_range.mp hi
    have hget := List.getElem?_eq_getElem hi
    have hb := (layout_bounds (dataStart files) files).2 _ (List.getElem_mem hi)
    rw [entry_format h hget (by omega) (by omega), hget]
    rfl
  have hmap : (List.range files.length).map (fun i => (es[i]?.map TableEntry.toFsEntry).getD ⟨[],0,0⟩) =
      es.map TableEntry.toFsEntry := by
    apply List.ext_getElem
    · simp [hlen]
    · intro i h1 h2
      have hi : i < es.length := by simpa using h2
      simp [hi]
  simp only [Reader.entries, nFiles_format (show files.length < 2 ^ 64 by omega), bind, Except.bind]
  rw [mapM_eq hone, hmap]

variable (h0 : ∀ f ∈ files, 0 ∉ asBytes f.1)
include h0

omit hsize in
lemma layout_name (he : e ∈ layout off files) : Reader.entryName e.toFsEntry = .ok e.name := by
  refine entryName_eq (layout_short h he) ?_
  have hm : e.name ∈ files.map Prod.fst := layout_names off files ▸ List.mem_map_of_mem he
  obtain ⟨f,hf,hn⟩ := List.mem_map.mp hm
  exact hn ▸ h0 f hf

lemma iter_format : (⟨format files⟩ : Reader).iter = .ok (files.map Prod.fst) := by
  have hone : ∀ e ∈ (layout (dataStart files) files).map TableEntry.toFsEntry,
      Reader.entryName e = .ok ((Reader.entryName e).toOption.getD "") := fun e he => by
    obtain ⟨e',he',rfl⟩ := List.mem_map.mp he
    rw [layout_name h h0 he']
    rfl
  simp only [Reader.iter, entries_format h hsize, bind, Except.bind]
  rw [mapM_eq hone, List.map_map, ← layout_names (dataStart files)]
  congr 1
  apply List.map_congr_left
  intro e he
  simp only [Function.comp, layout_name h h0 he]
  rfl

omit hsize h h0 in
lemma find_eq {es : List TableEntry} (hn : ∀ e ∈ es, Reader.entryName e.toFsEntry = .ok e.name) (name : String) :
    Reader.find name (es.map TableEntry.toFsEntry) =
      .ok ((es.find? fun e => e.name = name).map TableEntry.toFsEntry) := by
  induction es with
  | nil => rfl
  | cons e es ih =>
    have ih := ih fun e' he' => hn e' (by simp [he'])
    simp only [List.map_cons, Reader.find, hn e (by simp), bind, Except.bind, List.find?_cons]
    by_cases hname : e.name = name
    · simp [hname, pure, Except.pure]
    · simp [hname, ih]

lemma get_format {f : File} (hf : f ∈ files) : (⟨format files⟩ : Reader).get f.1 = .ok (some f.2) := by
  obtain ⟨i,hi⟩ := List.mem_iff_getElem?.mp hf
  obtain ⟨e,he,hname,hes⟩ := layout_get (dataStart files) hi
  have hmem := List.mem_of_getElem? he
  have hfind : (layout (dataStart files) files).find? (fun e => e.name = f.1) = some e := by
    have hnd : ((layout (dataStart files) files).map TableEntry.name).Nodup := layout_names _ files ▸ h.distinct
    cases hx : (layout (dataStart files) files).find? (fun e => e.name = f.1) with
    | none =>
      rw [List.find?_eq_none] at hx
      exact absurd hname (by simpa using hx e hmem)
    | some e' =>
      have h1 := List.find?_some hx
      have h2 := List.mem_of_find?_eq_some hx
      rw [List.inj_on_of_nodup_map hnd h2 hmem (by simpa [hname] using h1)]
  have hb := (layout_bounds (dataStart files) files).2 e hmem
  have hend := length_format h
  have hslice : slice (format files) e.offset e.size = f.2 := by
    refine slice_contents (dvd_dataStart files) ?_ he hi
    exact length_pad (length_front h ▸ front_le files)
  simp only [Reader.get, entries_format h hsize, find_eq (fun e => layout_name h h0) f.1, hfind,
    Option.map_some, bind, Except.bind, TableEntry.toFsEntry, checkedAdd_of_lt (show e.offset + e.size < 2 ^ 64 by omega),
    assert_of (show e.offset ≤ e.offset + e.size ∧ e.offset + e.size ≤ (format files).length by omega), hslice,
    pure, Except.pure]

lemma get_format_none {name : String} (hname : name ∉ files.map Prod.fst) :
    (⟨format files⟩ : Reader).get name = .ok none := by
  have hfind : (layout (dataStart files) files).find? (fun e => e.name = name) = none := by
    rw [List.find?_eq_none]
    intro e he
    rw [decide_eq_true_eq]
    rintro rfl
    exact hname (layout_names _ files ▸ List.mem_map_of_mem he)
  simp only [Reader.get, entries_format h hsize, find_eq (fun e => layout_name h h0) name, hfind,
    Option.map_none, bind, Except.bind, pure, Except.pure]

end

/-- The reader lists the names of the files in their order, gets the contents of each of them and
nothing for another name; the contents of the files lie behind the table and apart from each other. -/
theorem reader_undoes_tool (hb : fsTool files = .ok image) (h0 : ∀ f ∈ files, 0 ∉ asBytes f.1) :
    (⟨image⟩ : Reader).iter = .ok (files.map Prod.fst) ∧
    (∀ f ∈ files, (⟨image⟩ : Reader).get f.1 = .ok (some f.2)) ∧
    (∀ name, name ∉ files.map Prod.fst → (⟨image⟩ : Reader).get name = .ok none) ∧
    ∃ es, (⟨image⟩ : Reader).entries = .ok es ∧ es.length = files.length ∧
      es.Pairwise (fun a b => a.offset + a.size ≤ b.offset) ∧
      ∀ e ∈ es, HEADER_SIZE + ENTRY_SIZE * files.length ≤ e.offset ∧ e.offset + e.size ≤ image.length := by
  obtain ⟨_,h,hsize,rfl⟩ := fsTool_eq_ok.mp hb
  obtain ⟨hp,hbounds⟩ := layout_bounds (dataStart files) files
  refine ⟨iter_format h hsize h0,fun f hf => get_format h hsize h0 hf,fun name hn => get_format_none h hsize h0 hn,
    _,entries_format h hsize,by rw [List.length_map, length_layout],List.pairwise_map.mpr hp,fun e he => ?_⟩
  obtain ⟨e',he',rfl⟩ := List.mem_map.mp he
  obtain ⟨h1,h2⟩ := hbounds e' he'
  exact ⟨(front_le files).trans h1,length_format h ▸ h2⟩

/-- A file and an empty file behind it. -/
theorem reader_undoes_tool_two :
    ∃ image, fsTool [("cat",[1,2,3]),("empty",[])] = .ok image ∧ (⟨image⟩ : Reader).iter = .ok ["cat","empty"] ∧
      (⟨image⟩ : Reader).get "empty" = .ok (some []) := by
  have hn : NamesOk [("cat",[1,2,3]),("empty",[])] := ⟨by decide,by decide⟩
  have hb := fsTool_eq_ok.mpr ⟨by simp,hn,by rw [length_format hn]; decide,rfl⟩
  have h := reader_undoes_tool hb (by decide)
  exact ⟨_,hb,h.1,h.2.1 ("empty",[]) (by simp)⟩

end Lilith.RamFs

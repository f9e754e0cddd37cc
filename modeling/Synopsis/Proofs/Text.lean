import Mathlib.Data.List.DropRight
import Synopsis.Text.Basic

/-! Byte offsets of a text and its trimmed form. An offset at which the bytes hold an ASCII
character never splits a character. -/
namespace Synopsis.Text

theorem bytes_cons (c : Char) (cs : List Char) : bytes (c :: cs) = bytes [c] ++ bytes cs := by
  simp [bytes]

@[simp] theorem bytes_append (cs ds : List Char) : bytes (cs ++ ds) = bytes cs ++ bytes ds := by
  simp [bytes]

theorem bytes_ascii (c : Char) (hc : c.toNat < 128) : bytes [c] = [c] := by
  have hv : c.val.toNat < 128 := hc
  have he : String.utf8EncodeChar c = [UInt8.ofNat c.val.toNat] := by
    simp only [String.utf8EncodeChar, if_pos (show c.val.toNat ≤ 0x7f by omega)]
  have hb : (UInt8.ofNat c.val.toNat).toNat = c.val.toNat := by
    rw [UInt8.toNat_ofNat']
    omega
  have hu : Char.ofUInt8 (UInt8.ofNat c.val.toNat) = c := by
    apply Char.ext
    apply UInt32.toNat_inj.mp
    change (UInt8.ofNat c.val.toNat).toUInt32.toNat = c.val.toNat
    rw [UInt8.toNat_toUInt32, hb]
  simpa [bytes, he] using hu

theorem bytes_of_ascii (cs : List Char) (hcs : ∀ c ∈ cs, c.toNat < 128) : bytes cs = cs := by
  induction cs with
  | nil => rfl
  | cons c cs ih =>
    rw [bytes_cons, bytes_ascii c (hcs c List.mem_cons_self),
      ih fun d hd => hcs d (List.mem_cons_of_mem c hd)]
    rfl

/-- Every byte of a longer character lies above the ASCII range. -/
theorem high_of_mem_bytes (c u : Char) (hc : 128 ≤ c.toNat) (hu : u ∈ bytes [c]) :
    128 ≤ u.toNat := by
  have hv : ¬ c.val.toNat ≤ 0x7f := by
    have h : 128 ≤ c.val.toNat := hc
    omega
  have hb (n m : ℕ) (hm : 128 ≤ m) (hn : n+m < 256) :
      128 ≤ (Char.ofUInt8 (UInt8.ofNat (n+m))).toNat := by
    change 128 ≤ (UInt8.ofNat (n+m)).toNat
    rw [UInt8.toNat_ofNat']
    omega
  simp only [bytes, List.flatMap_cons, List.flatMap_nil, List.append_nil, List.mem_map,
    String.utf8EncodeChar, if_neg hv] at hu
  obtain ⟨b, hmem, rfl⟩ := hu
  -- two, three or four bytes, each a marker of at least 128 plus some payload
  split_ifs at hmem <;> simp only [List.mem_cons, List.not_mem_nil, or_false] at hmem
  · rcases hmem with rfl | rfl <;> exact hb _ _ (by omega) (by omega)
  · rcases hmem with rfl | rfl | rfl <;> exact hb _ _ (by omega) (by omega)
  · rcases hmem with rfl | rfl | rfl | rfl <;> exact hb _ _ (by omega) (by omega)

/-- A byte of a text is one of its ASCII characters, or lies above the ASCII range. -/
theorem mem_bytes_cases (cs : List Char) (u : Char) (hu : u ∈ bytes cs) :
    u ∈ cs ∨ 128 ≤ u.toNat := by
  obtain ⟨c, hc, hmem⟩ := List.mem_flatMap.mp hu
  have hmem : u ∈ bytes [c] := by simpa [bytes] using hmem
  by_cases hlow : c.toNat < 128
  · rw [bytes_ascii c hlow, List.mem_singleton] at hmem
    rw [hmem]
    exact .inl hc
  · exact .inr (high_of_mem_bytes c u (by omega) hmem)

theorem length_bytes (cs : List Char) : (bytes cs).length = byteLength cs := by
  induction cs with
  | nil => rfl
  | cons c cs ih =>
    have hc : (bytes [c]).length = c.utf8Size := by simp [bytes]
    rw [bytes_cons, List.length_append, hc, ih, byteLength]

theorem byteLength_append (cs ds : List Char) :
    byteLength (cs ++ ds) = byteLength cs + byteLength ds := by
  simp only [← length_bytes, bytes_append, List.length_append]

/-- A cut of the bytes before an ASCII byte is a cut of the characters. -/
theorem split_before_ascii (cs us vs : List Char) (u : Char) (hu : u.toNat < 128)
    (h : bytes cs = us ++ u :: vs) :
    ∃ head tail, cs = head ++ u :: tail ∧ bytes head = us ∧ bytes tail = vs := by
  induction cs generalizing us with
  | nil => simp [bytes] at h
  | cons c cs ih =>
    rw [bytes_cons] at h
    by_cases hc : c.toNat < 128
    · rw [bytes_ascii c hc] at h
      cases us with
      | nil =>
        obtain ⟨rfl, htail⟩ := List.cons.inj h
        exact ⟨[], cs, rfl, rfl, htail⟩
      | cons a us =>
        obtain ⟨rfl, hrest⟩ := List.cons.inj h
        obtain ⟨head, tail, rfl, hhead, htail⟩ := ih us hrest
        refine ⟨c :: head, tail, rfl, ?_, htail⟩
        rw [bytes_cons, bytes_ascii c hc, hhead, List.singleton_append]
    · -- the bytes of `c` are all high, so the ASCII byte lies after them
      have hlt : (bytes [c]).length ≤ us.length := by
        by_contra hlt
        have hget : (bytes [c] ++ bytes cs)[us.length]? = some u := by
          rw [h]
          simp
        rw [List.getElem?_append_left (by omega)] at hget
        have hhigh := high_of_mem_bytes c u (by omega) (List.mem_of_getElem? hget)
        omega
      obtain ⟨ws, rfl, hrest⟩ : ∃ ws, us = bytes [c] ++ ws ∧ bytes cs = ws ++ u :: vs := by
        refine ⟨us.drop (bytes [c]).length, ?_, ?_⟩
        · have ht := congrArg (List.take (bytes [c]).length) h
          rw [List.take_left, List.take_append_of_le_length hlt] at ht
          conv_lhs => rw [← List.take_append_drop (bytes [c]).length us, ← ht]
        · have hd := congrArg (List.drop (bytes [c]).length) h
          rwa [List.drop_left, List.drop_append_of_le_length hlt] at hd
      obtain ⟨head, tail, rfl, hhead, htail⟩ := ih ws hrest
      exact ⟨c :: head, tail, rfl, by rw [bytes_cons, hhead], htail⟩

theorem eq_nil_of_bytes (cs : List Char) (h : bytes cs = []) : cs = [] := by
  cases cs with
  | nil => rfl
  | cons c cs =>
    have hsize := Char.utf8Size_pos c
    have hlength := length_bytes (c :: cs)
    simp only [h, List.length_nil, byteLength] at hlength
    omega

/-- Bytes that are all ASCII are the characters themselves. -/
theorem eq_of_bytes_ascii (cs us : List Char) (hus : ∀ u ∈ us, u.toNat < 128)
    (h : bytes cs = us) : cs = us := by
  induction us generalizing cs with
  | nil => exact eq_nil_of_bytes cs h
  | cons u us ih =>
    obtain ⟨head, tail, rfl, hhead, htail⟩ :=
      split_before_ascii cs [] us u (hus u List.mem_cons_self) h
    rw [eq_nil_of_bytes head hhead, ih tail (fun v hv => hus v (List.mem_cons_of_mem u hv)) htail]
    rfl

theorem takeBytes?_byteLength (head rest : List Char) :
    takeBytes? (byteLength head) (head ++ rest) = some head := by
  induction head with
  | nil => simp [byteLength, takeBytes?]
  | cons c head ih =>
    have hpos : 0 < c.utf8Size := Char.utf8Size_pos c
    obtain ⟨n, hn⟩ : ∃ n, byteLength (c :: head) = n+1 :=
      ⟨c.utf8Size+byteLength head-1, by simp only [byteLength]; omega⟩
    have hle : c.utf8Size ≤ n+1 := by simp only [byteLength] at hn; omega
    have hsub : n+1-c.utf8Size = byteLength head := by simp only [byteLength] at hn; omega
    rw [hn, List.cons_append, takeBytes?, if_pos hle, hsub, ih]
    rfl

theorem trimEnd_isPrefix (cs : List Char) : trimEnd cs <+: cs := List.rdropWhile_prefix isBlank cs

/-- Trimming takes blanks from the end and nothing else. -/
theorem exists_blanks (cs : List Char) :
    ∃ blanks, cs = trimEnd cs ++ blanks ∧ ∀ c ∈ blanks, isBlank c = true := by
  refine ⟨cs.rtakeWhile isBlank, ?_, fun c hc => List.mem_rtakeWhile_imp hc⟩
  exact List.rdropWhile_append_rtakeWhile.symm

@[simp] theorem trimEnd_trimEnd (cs : List Char) : trimEnd (trimEnd cs) = trimEnd cs :=
  List.rdropWhile_idempotent isBlank cs

theorem trimEnd_concat (cs : List Char) (c : Char) (hc : isBlank c = false) :
    trimEnd (cs ++ [c]) = cs ++ [c] :=
  List.rdropWhile_concat_neg isBlank cs c (by simp [hc])

theorem trimEnd_append_cons (cs ds : List Char) (c : Char) (hc : isBlank c = false) :
    trimEnd (cs ++ c :: ds) = cs ++ c :: trimEnd ds := by
  have hstop : (c :: cs.reverse).dropWhile isBlank = c :: cs.reverse := by simp [hc]
  have hreverse : (cs ++ c :: ds).reverse = ds.reverse ++ c :: cs.reverse := by simp
  unfold trimEnd dropEndWhile
  rw [hreverse, List.dropWhile_append, hstop]
  split_ifs with hempty
  · have hds : ds.reverse.dropWhile isBlank = [] := by simpa using hempty
    simp [hds]
  · simp

theorem trimStart_cons (c : Char) (cs : List Char) (hc : isBlank c = false) :
    trimStart (c :: cs) = c :: cs := by
  simp [trimStart, hc]

/-- A part at the start of a text without leading blanks has none either. -/
theorem trimStart_of_isPrefix (r t : List Char) (hr : r <+: t) (ht : trimStart t = t) :
    trimStart r = r := by
  cases r with
  | nil => rfl
  | cons c r =>
    obtain ⟨rest, rfl⟩ := hr
    apply trimStart_cons
    have hhead := List.dropWhile_eq_self_iff.mp ht (by simp)
    simpa using hhead

theorem trimStart_trim (cs : List Char) : trimStart (trim cs) = trim cs :=
  trimStart_of_isPrefix _ (trimStart cs) (trimEnd_isPrefix _) (List.dropWhile_idempotent _ _)

@[simp] theorem trim_trim (cs : List Char) : trim (trim cs) = trim cs := by
  have hstart := trimStart_trim cs
  unfold trim at hstart ⊢
  rw [hstart, trimEnd_trimEnd]

/-! ### Pieces -/

theorem splitWhere_ne_nil (p : α → Bool) (cs : List α) : splitWhere p cs ≠ [] := by
  cases cs with
  | nil => simp [splitWhere]
  | cons c cs =>
    rw [splitWhere]
    split_ifs
    · simp
    · split <;> simp

theorem splitWhere_unbroken (p : α → Bool) (w : List α) (hw : ∀ c ∈ w, p c = false) :
    splitWhere p w = [w] := by
  induction w with
  | nil => rfl
  | cons c w ih =>
    have hc := hw c List.mem_cons_self
    rw [splitWhere, if_neg (by simp [hc]), ih fun d hd => hw d (List.mem_cons_of_mem c hd)]

/-- A separator is a border between pieces. -/
theorem splitWhere_append_cons (p : α → Bool) (us vs : List α) (c : α) (hc : p c = true) :
    splitWhere p (us ++ c :: vs) = splitWhere p us ++ splitWhere p vs := by
  induction us with
  | nil => simp [splitWhere, hc]
  | cons a us ih =>
    by_cases ha : p a = true
    · simp [splitWhere, ha, ih]
    · obtain ⟨w, ws, hsplit⟩ := List.exists_cons_of_ne_nil (splitWhere_ne_nil p us)
      simp [splitWhere, ha, ih, hsplit]

/-- Pieces without the separator that are joined by it are cut apart again. -/
theorem splitWhere_join (sep : String) (c : Char) (hsep : sep.toList = [c]) (ls : List String)
    (hne : ls ≠ []) (h : ∀ l ∈ ls, c ∉ l.toList) :
    splitWhere (· == c) (join sep ls).toList = ls.map String.toList := by
  have hpiece (l : String) (hl : c ∉ l.toList) : splitWhere (· == c) l.toList = [l.toList] := by
    apply splitWhere_unbroken
    intro d hd
    rw [beq_eq_false_iff_ne]
    rintro rfl
    exact hl hd
  induction ls with
  | nil => exact absurd rfl hne
  | cons l ls ih =>
    have hl := h l List.mem_cons_self
    cases ls with
    | nil => exact hpiece l hl
    | cons l' ls =>
      have hrest := ih (by simp) fun x hx => h x (List.mem_cons_of_mem l hx)
      have htext : (join sep (l :: l' :: ls)).toList =
          l.toList ++ c :: (join sep (l' :: ls)).toList := by
        simp [join, hsep]
      calc splitWhere (· == c) (join sep (l :: l' :: ls)).toList
          = splitWhere (· == c) l.toList ++ splitWhere (· == c) (join sep (l' :: ls)).toList := by
            rw [htext, splitWhere_append_cons (· == c) _ _ c (by simp)]
        _ = [l.toList] ++ (l' :: ls).map String.toList := by rw [hpiece l hl, hrest]
        _ = (l :: l' :: ls).map String.toList := rfl

end Synopsis.Text

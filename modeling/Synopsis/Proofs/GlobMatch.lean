import Mathlib
import Synopsis.Glob
import Synopsis.Proofs.Text

/-! What patterns match. The tokens of a pattern take a path apart from its front, and what they
leave is always an end of the path. A pattern of plain characters matches the paths that end in it,
and a pattern for the last part of a path does not see what is put before the path. -/
namespace Synopsis

/-! ### Bytes of a path -/

namespace Utf8

theorem toList_loop (bs : ByteArray) (i : Nat) (read : List UInt8) :
    ByteArray.toList.loop bs i read = read.reverse ++ bs.data.toList.drop i := by
  fun_induction ByteArray.toList.loop bs i read with
  | case1 i read hlt ih =>
    have hi : i < bs.data.toList.length := by simpa using hlt
    have hget : bs.get! i = bs.data.toList[i] := by
      rw [Array.getElem_toList]
      exact getElem!_pos bs.data i (by simpa using hlt)
    rw [ih, List.drop_eq_getElem_cons hi, hget]
    simp
  | case2 i read hge =>
    have hend : bs.data.toList.length ≤ i := by simpa using hge
    rw [List.drop_eq_nil_of_le hend, List.append_nil]

theorem encode_eq (s : String) : encode s = s.toList.flatMap String.utf8EncodeChar := by
  have hbytes : s.toByteArray = (s.toList.flatMap String.utf8EncodeChar).toByteArray := by
    conv_lhs => rw [← String.ofList_toList (s := s)]
    exact String.toByteArray_ofList
  rw [encode, String.toUTF8_eq_toByteArray, ByteArray.toList, toList_loop, hbytes,
    List.data_toByteArray]
  simp

theorem encode_append (s t : String) : encode (s ++ t) = encode s ++ encode t := by
  rw [encode_eq, encode_eq, encode_eq, String.toList_append, List.flatMap_append]

/-- A slash byte is a slash of the text. -/
theorem slash_mem_encode (s : String) (h : Glob.slash ∈ encode s) : '/' ∈ s.toList := by
  have hmem : '/' ∈ Text.bytes s.toList := by
    rw [Text.bytes, ← List.map_flatMap, ← encode_eq]
    exact List.mem_map.mpr ⟨Glob.slash, h, rfl⟩
  rcases Text.mem_bytes_cases s.toList '/' hmem with hslash | hhigh
  · exact hslash
  · exact absurd hhigh (by decide)

end Utf8

namespace Glob

/-! ### What is left of a path -/

/-- One list more, unless there is one of its length. -/
def keepNew (taken : List Nat × List (List UInt8)) (l : List UInt8) :
    List Nat × List (List UInt8) :=
  if taken.1.contains l.length then taken else (l.length :: taken.1, l :: taken.2)

theorem distinct_eq (ls : List (List UInt8)) : distinct ls = (ls.foldl keepNew ([], [])).2 := rfl

theorem mem_of_mem_foldl_keepNew (ls : List (List UInt8)) (taken : List Nat × List (List UInt8))
    (rest : List UInt8) (h : rest ∈ (ls.foldl keepNew taken).2) : rest ∈ taken.2 ∨ rest ∈ ls := by
  induction ls generalizing taken with
  | nil => exact .inl h
  | cons l ls ih =>
    rw [List.foldl_cons] at h
    rcases ih _ h with htaken | hmore
    · unfold keepNew at htaken
      split_ifs at htaken with hlength
      · exact .inl htaken
      · rcases List.mem_cons.mp htaken with rfl | htaken
        · exact .inr List.mem_cons_self
        · exact .inl htaken
    · exact .inr (List.mem_cons_of_mem l hmore)

theorem mem_of_mem_distinct (ls : List (List UInt8)) (rest : List UInt8) (h : rest ∈ distinct ls) :
    rest ∈ ls := by
  rw [distinct_eq] at h
  simpa using mem_of_mem_foldl_keepNew ls ([], []) rest h

/-- What has been taken are ends of a list, and their lengths are known. -/
structure Taken (bs : List UInt8) (taken : List Nat × List (List UInt8)) : Prop where
  ends : ∀ l ∈ taken.2, l <:+ bs
  lengths : ∀ n ∈ taken.1, ∃ l ∈ taken.2, l.length = n

/-- An end of the list that is met is taken, or has been. -/
theorem Taken.keepNew {bs : List UInt8} {taken : List Nat × List (List UInt8)} (h : Taken bs taken)
    (l : List UInt8) (hl : l <:+ bs) :
    Taken bs (Glob.keepNew taken l) ∧ l ∈ (Glob.keepNew taken l).2 ∧
      taken.2 ⊆ (Glob.keepNew taken l).2 := by
  unfold Glob.keepNew
  split_ifs with hlength
  · -- the list of this length that was taken is the same
    obtain ⟨m, hm, hsame⟩ := h.lengths _ (List.contains_iff_mem.mp hlength)
    have hsuffix := List.suffix_of_suffix_length_le hl (h.ends m hm) hsame.ge
    rw [hsuffix.eq_of_length hsame.symm]
    exact ⟨h, hm, List.Subset.refl _⟩
  · refine ⟨⟨List.forall_mem_cons.mpr ⟨hl, h.ends⟩, List.forall_mem_cons.mpr ⟨?_, ?_⟩⟩,
      List.mem_cons_self, List.subset_cons_self l _⟩
    · exact ⟨l, List.mem_cons_self, rfl⟩
    · intro n hn
      obtain ⟨m, hm, hsame⟩ := h.lengths n hn
      exact ⟨m, List.mem_cons_of_mem l hm, hsame⟩

theorem Taken.foldl {bs : List UInt8} (ls : List (List UInt8))
    {taken : List Nat × List (List UInt8)} (h : Taken bs taken) (hls : ∀ l ∈ ls, l <:+ bs)
    (rest : List UInt8) (hrest : rest ∈ taken.2 ∨ rest ∈ ls) :
    rest ∈ (ls.foldl Glob.keepNew taken).2 := by
  induction ls generalizing taken with
  | nil => exact hrest.resolve_right (List.not_mem_nil)
  | cons l ls ih =>
    obtain ⟨htaken, hnew, hold⟩ := h.keepNew l (hls l List.mem_cons_self)
    refine ih htaken (fun m hm => hls m (List.mem_cons_of_mem l hm)) ?_
    rcases hrest with hrest | hrest
    · exact .inl (hold hrest)
    · rcases List.mem_cons.mp hrest with rfl | hrest
      · exact .inl hnew
      · exact .inr hrest

/-- Of lists that are ends of one list, taking one of each length takes them all. -/
theorem mem_distinct (bs : List UInt8) (ls : List (List UInt8)) (hls : ∀ l ∈ ls, l <:+ bs)
    (rest : List UInt8) (hrest : rest ∈ ls) : rest ∈ distinct ls := by
  have hnothing : Taken bs ([], []) := ⟨by simp, by simp⟩
  rw [distinct_eq]
  exact hnothing.foldl ls hls rest (.inr hrest)

theorem suffix_of_mem_tails (p : UInt8 → Bool) (bs rest : List UInt8) (h : rest ∈ tails p bs) :
    rest <:+ bs := by
  induction bs with
  | nil =>
    rw [tails, List.mem_singleton] at h
    rw [h]
  | cons b bs ih =>
    rw [tails, List.mem_cons] at h
    rcases h with rfl | h
    · exact List.suffix_refl _
    · split_ifs at h
      · exact (ih h).trans (List.suffix_cons b bs)
      · cases h

theorem mem_tails_true (bs rest : List UInt8) : rest ∈ tails (fun _ => true) bs ↔ rest <:+ bs := by
  refine ⟨suffix_of_mem_tails _ bs rest, fun h => ?_⟩
  induction bs with
  | nil =>
    rw [List.suffix_nil.mp h]
    exact List.mem_singleton_self []
  | cons b bs ih =>
    rw [tails, if_pos rfl, List.mem_cons]
    rcases List.suffix_cons_iff.mp h with rfl | h
    · exact .inl rfl
    · exact .inr (ih h)

theorem mem_afterSlashes (bs rest : List UInt8) :
    rest ∈ afterSlashes bs ↔ slash :: rest <:+ bs := by
  rw [afterSlashes, List.mem_filterMap]
  constructor
  · rintro ⟨l, hl, hrest⟩
    rw [mem_tails_true] at hl
    cases l with
    | nil => cases hrest
    | cons b l =>
      obtain ⟨rfl, rfl⟩ : b = slash ∧ l = rest := by simpa using hrest
      exact hl
  · intro h
    exact ⟨slash :: rest, (mem_tails_true bs _).mpr h, by simp⟩

mutual

/-- What a token leaves of a path is an end of it. -/
theorem suffix_of_mem_after (separated : Bool) (t : Token) (bs rest : List UInt8)
    (h : rest ∈ after separated t bs) : rest <:+ bs := by
  have hslashes (bs : List UInt8) (h : rest ∈ afterSlashes bs) : rest <:+ bs :=
    (List.suffix_cons slash rest).trans ((mem_afterSlashes bs rest).mp h)
  -- each token uses up the bytes at the start that it stands for
  cases t with
  | literal c =>
    rw [after] at h
    split_ifs at h
    · rw [List.mem_singleton.mp h]
      exact List.drop_suffix _ bs
    · cases h
  | any =>
    cases bs with
    | nil => simp [after] at h
    | cons b bs =>
      rw [after] at h
      split_ifs at h
      · cases h
      · rw [List.mem_singleton.mp h]
        exact List.suffix_cons b bs
  | star =>
    rw [after] at h
    exact suffix_of_mem_tails _ bs rest h
  | leading =>
    rw [after, List.mem_cons] at h
    rcases h with rfl | h
    · exact List.suffix_refl _
    · exact hslashes bs h
  | trailing =>
    cases bs with
    | nil => simp [after] at h
    | cons b bs =>
      rw [after] at h
      split_ifs at h
      · exact (suffix_of_mem_tails _ bs rest h).trans (List.suffix_cons b bs)
      · cases h
  | between =>
    cases bs with
    | nil => simp [after] at h
    | cons b bs =>
      rw [after] at h
      split_ifs at h
      · rcases List.mem_cons.mp h with rfl | h
        · exact List.suffix_cons b _
        · exact (hslashes bs h).trans (List.suffix_cons b bs)
      · cases h
  | set negated ranges =>
    cases bs with
    | nil => simp [after] at h
    | cons b bs =>
      rw [after] at h
      split_ifs at h
      · rw [List.mem_singleton.mp h]
        exact List.suffix_cons b bs
      · cases h
  | choice branches =>
    rw [after] at h
    split_ifs at h
    · rw [List.mem_singleton.mp h]
    · exact suffix_of_mem_afterAny separated branches bs rest (mem_of_mem_distinct _ _ h)

theorem suffix_of_mem_afterAll (separated : Bool) (ts : List Token) (bs rest : List UInt8)
    (h : rest ∈ afterAll separated ts bs) : rest <:+ bs := by
  cases ts with
  | nil =>
    rw [afterAll, List.mem_singleton] at h
    rw [h]
  | cons t ts =>
    rw [afterAll] at h
    obtain ⟨mid, hmid, hrest⟩ := List.mem_flatMap.mp (mem_of_mem_distinct _ _ h)
    exact (suffix_of_mem_afterAll separated ts mid rest hrest).trans
      (suffix_of_mem_after separated t bs mid (mem_of_mem_distinct _ _ hmid))

theorem suffix_of_mem_afterAny (separated : Bool) (branches : List (List Token))
    (bs rest : List UInt8) (h : rest ∈ afterAny separated branches bs) : rest <:+ bs := by
  cases branches with
  | nil => simp [afterAny] at h
  | cons b branches =>
    rw [afterAny, List.mem_append] at h
    rcases h with h | h
    · split_ifs at h
      · cases h
      · exact suffix_of_mem_afterAll separated b bs rest h
    · exact suffix_of_mem_afterAny separated branches bs rest h

end

/-- Tokens leave what the later ones leave of what the first one leaves. -/
theorem mem_afterAll_cons (separated : Bool) (t : Token) (ts : List Token) (bs rest : List UInt8) :
    rest ∈ afterAll separated (t :: ts) bs ↔
      ∃ mid ∈ after separated t bs, rest ∈ afterAll separated ts mid := by
  have hmids : ∀ mid ∈ after separated t bs, mid <:+ bs :=
    fun mid hmid => suffix_of_mem_after separated t bs mid hmid
  rw [afterAll]
  constructor
  · intro h
    obtain ⟨mid, hmid, hrest⟩ := List.mem_flatMap.mp (mem_of_mem_distinct _ _ h)
    exact ⟨mid, mem_of_mem_distinct _ _ hmid, hrest⟩
  · rintro ⟨mid, hmid, hrest⟩
    apply mem_distinct bs
    · intro l hl
      obtain ⟨mid, hmid, hl⟩ := List.mem_flatMap.mp hl
      exact (suffix_of_mem_afterAll separated ts mid l hl).trans
        (hmids mid (mem_of_mem_distinct _ _ hmid))
    · exact List.mem_flatMap.mpr ⟨mid, mem_distinct bs _ hmids mid hmid, hrest⟩

/-- A pattern that may start anywhere matches what its other tokens use up from the start of the
path or from behind a slash. -/
theorem accepts_leading (separated : Bool) (ts : List Token) (path : String) (hne : ts ≠ []) :
    (Glob.mk (.leading :: ts) separated).accepts path = true ↔
      ∃ mid, (mid = Utf8.encode path ∨ slash :: mid <:+ Utf8.encode path) ∧
        [] ∈ afterAll separated ts mid := by
  obtain ⟨t, ts, rfl⟩ := List.exists_cons_of_ne_nil hne
  have hany : (Glob.mk (.leading :: t :: ts) separated).accepts path = true ↔
      [] ∈ afterAll separated (.leading :: t :: ts) (Utf8.encode path) := by
    simp [accepts]
  rw [hany, mem_afterAll_cons]
  refine exists_congr fun mid => and_congr_left fun _ => ?_
  rw [after, List.mem_cons, mem_afterSlashes]

/-! ### Patterns for one part of a path -/

/-- A token that stands for bytes without a slash, where wildcards stop at slashes. -/
def Token.staysIn : Token → Bool
  | .literal c => c != '/'
  | .any | .star => true
  | .set negated ranges => !inSet negated ranges slash
  | _ => false

theorem used_of_mem_tails (p : UInt8 → Bool) (bs rest : List UInt8) (h : rest ∈ tails p bs) :
    ∃ used, bs = used ++ rest ∧ ∀ b ∈ used, p b = true := by
  induction bs with
  | nil => exact ⟨[], (List.mem_singleton.mp h).symm, by simp⟩
  | cons b bs ih =>
    rw [tails, List.mem_cons] at h
    rcases h with rfl | h
    · exact ⟨[], rfl, by simp⟩
    · split_ifs at h with hb
      · obtain ⟨used, rfl, hused⟩ := ih h
        exact ⟨b :: used, rfl, by simpa [hb] using hused⟩
      · cases h

theorem used_of_mem_after (t : Token) (ht : t.staysIn = true) (bs rest : List UInt8)
    (h : rest ∈ after true t bs) : ∃ used, bs = used ++ rest ∧ slash ∉ used := by
  -- the tokens that may use up a slash are excluded
  cases t with
  | literal c =>
    rw [after] at h
    split_ifs at h with hform
    · obtain ⟨rest', rfl⟩ := List.isPrefixOf_iff_prefix.mp hform
      rw [List.drop_left, List.mem_singleton] at h
      refine ⟨_, by rw [h], fun hslash => ?_⟩
      have hc : '/' = c := by simpa using Utf8.slash_mem_encode (String.singleton c) hslash
      rw [← hc] at ht
      cases ht
    · cases h
  | any =>
    cases bs with
    | nil => simp [after] at h
    | cons b bs =>
      simp only [after, Bool.true_and, decide_eq_true_eq] at h
      split_ifs at h with hb
      · cases h
      · exact ⟨[b], by rw [List.mem_singleton.mp h]; rfl, by simpa using Ne.symm hb⟩
  | star =>
    rw [after] at h
    obtain ⟨used, hbs, hused⟩ := used_of_mem_tails _ bs rest h
    refine ⟨used, hbs, fun hslash => ?_⟩
    simpa using hused slash hslash
  | set negated ranges =>
    cases bs with
    | nil => simp [after] at h
    | cons b bs =>
      rw [after] at h
      split_ifs at h with hb
      · refine ⟨[b], by rw [List.mem_singleton.mp h]; rfl, fun hslash => ?_⟩
        rw [← List.mem_singleton.mp hslash] at hb
        simp [Token.staysIn, hb] at ht
      · cases h
  | leading => cases ht
  | trailing => cases ht
  | between => cases ht
  | choice branches => cases ht

theorem used_of_mem_afterAll (ts : List Token) (hts : ∀ t ∈ ts, t.staysIn = true)
    (bs rest : List UInt8) (h : rest ∈ afterAll true ts bs) :
    ∃ used, bs = used ++ rest ∧ slash ∉ used := by
  induction ts generalizing bs with
  | nil =>
    rw [afterAll, List.mem_singleton] at h
    exact ⟨[], by rw [h]; rfl, by simp⟩
  | cons t ts ih =>
    obtain ⟨mid, hmid, hrest⟩ := (mem_afterAll_cons true t ts bs rest).mp h
    obtain ⟨first, rfl, hfirst⟩ := used_of_mem_after t (hts t List.mem_cons_self) bs mid hmid
    obtain ⟨others, rfl, hothers⟩ := ih (fun t ht => hts t (List.mem_cons_of_mem _ ht)) mid hrest
    exact ⟨first ++ others, (List.append_assoc ..).symm, by simp [hfirst, hothers]⟩

/-- A pattern for the last part of a path, whatever the others are. -/
def floats (g : Glob) : Bool :=
  g.separated && match g.tokens with
    | .leading :: t :: ts => (t :: ts).all Token.staysIn
    | _ => false

/-- Such a pattern does not see what is put before a path. -/
theorem accepts_below (g : Glob) (h : g.floats = true) (front path : String) :
    g.accepts (front ++ "/" ++ path) = g.accepts path := by
  obtain ⟨tokens, separated⟩ := g
  rw [floats, Bool.and_eq_true] at h
  obtain ⟨hseparated, htokens⟩ := h
  obtain rfl : separated = true := hseparated
  split at htokens
  next t ts hleading =>
    obtain rfl : tokens = .leading :: t :: ts := hleading
    have hslash : Utf8.encode "/" = [slash] := by rw [Utf8.encode_eq]; rfl
    have hpath : Utf8.encode (front ++ "/" ++ path) =
        Utf8.encode front ++ slash :: Utf8.encode path := by
      rw [Utf8.encode_append, Utf8.encode_append, hslash, List.append_assoc]
      rfl
    rw [Bool.eq_iff_iff, accepts_leading _ _ _ (List.cons_ne_nil t ts),
      accepts_leading _ _ _ (List.cons_ne_nil t ts), hpath]
    refine exists_congr fun mid => and_congr_left fun hmid => ?_
    -- what the other tokens use up lies behind the last slash
    have hno : slash ∉ mid := by
      obtain ⟨used, hused, hno⟩ :=
        used_of_mem_afterAll (t :: ts) (List.all_eq_true.mp htokens) mid [] hmid
      rwa [hused, List.append_nil]
    constructor
    · rintro (rfl | ⟨before, hbefore⟩)
      · simp at hno
      · rcases List.append_eq_append_iff.mp hbefore with ⟨us, _, hus⟩ | ⟨us, _, hus⟩
        · cases us with
          | nil => exact .inl (List.cons.inj hus).2
          | cons b us =>
            obtain ⟨_, rfl⟩ := List.cons.inj hus
            simp at hno
        · cases us with
          | nil => exact .inl (List.cons.inj hus).2.symm
          | cons b us => exact .inr ⟨us, (List.cons.inj hus).2.symm⟩
    · rintro (rfl | hsuffix)
      · exact .inr ⟨Utf8.encode front, rfl⟩
      · exact .inr ((hsuffix.trans (List.suffix_cons _ _)).trans (List.suffix_append _ _))
  next => cases htokens

/-! ### Plain characters -/

/-- Characters use up themselves. -/
theorem nil_mem_afterAll_literals (separated : Bool) (cs : List Char) :
    [] ∈ afterAll separated (cs.map .literal) (Utf8.encode (String.ofList cs)) := by
  induction cs with
  | nil =>
    rw [List.map_nil, afterAll, Utf8.encode_eq]
    simp
  | cons c cs ih =>
    have hsplit : Utf8.encode (String.ofList (c :: cs)) =
        Utf8.encode (String.singleton c) ++ Utf8.encode (String.ofList cs) := by
      rw [← Utf8.encode_append]
      congr 1
      apply String.toList_injective
      simp
    rw [List.map_cons, mem_afterAll_cons]
    refine ⟨_, ?_, ih⟩
    rw [after, hsplit]
    simp

/-- The pattern of a name at any depth matches the paths that are the name or end in it. -/
theorem accepts_name (separated : Bool) (name front : String) (hname : name ≠ "") :
    (Glob.mk (.leading :: name.toList.map .literal) separated).accepts name = true ∧
      (Glob.mk (.leading :: name.toList.map .literal) separated).accepts (front ++ "/" ++ name) =
        true := by
  have hne : name.toList.map Token.literal ≠ [] := by simpa using hname
  have hused := nil_mem_afterAll_literals separated name.toList
  rw [String.ofList_toList] at hused
  rw [accepts_leading _ _ _ hne, accepts_leading _ _ _ hne]
  refine ⟨⟨_, .inl rfl, hused⟩, ⟨_, .inr ?_, hused⟩⟩
  have hslash : Utf8.encode "/" = [slash] := by rw [Utf8.encode_eq]; rfl
  rw [Utf8.encode_append, Utf8.encode_append, hslash, List.append_assoc]
  exact ⟨Utf8.encode front, rfl⟩

/-- Characters that stand for themselves in a pattern. -/
def isPlain (c : Char) : Bool := !"*?[\x7b\x7d\\".toList.contains c

theorem readPiece_plain (lenient : Bool) (r : Reader) (c : Char) (cs : List Char)
    (hc : isPlain c = true) (hgroups : r.groups = []) :
    readPiece lenient r c cs = .ok ({ r with previous := some c }.push (.literal c), cs) := by
  have hne : c ≠ '*' ∧ c ≠ '?' ∧ c ≠ '[' ∧ c ≠ '\x7b' ∧ c ≠ '\x7d' ∧ c ≠ '\\' := by
    simpa [isPlain] using hc
  obtain ⟨hstar, hany, hclass, hopen, hclose, hescape⟩ := hne
  by_cases hcomma : c = ','
  · subst hcomma
    simp [readPiece, Reader.comma, Reader.inGroup, hgroups]
  · unfold readPiece
    split
    case h_8 => rfl
    all_goals contradiction

theorem readAll_plain (lenient : Bool) (cs : List Char) (hcs : ∀ c ∈ cs, isPlain c = true)
    (n : Nat) (r : Reader) (b : List Token) (hn : cs.length ≤ n) (hgroups : r.groups = [])
    (hbranches : r.branches = [b]) : ∃ r', readAll lenient n r cs = .ok r' ∧
      r'.branches = [(cs.map .literal).reverse ++ b] := by
  induction cs generalizing n r b with
  | nil =>
    refine ⟨r, ?_, hbranches⟩
    cases n <;> rfl
  | cons c cs ih =>
    obtain ⟨n, rfl⟩ : ∃ m, n = m + 1 := ⟨n - 1, by simp at hn; omega⟩
    have hpiece := readPiece_plain lenient r c cs (hcs c List.mem_cons_self) hgroups
    obtain ⟨r', hread, hlast⟩ := ih (fun d hd => hcs d (List.mem_cons_of_mem c hd)) n
      ({ r with previous := some c }.push (.literal c)) (.literal c :: b) (by simpa using hn)
      (by simp [Reader.push, hbranches, hgroups]) (by simp [Reader.push, hbranches])
    refine ⟨r', ?_, ?_⟩
    · rw [readAll, hpiece]
      exact hread
    · rw [hlast]
      simp

/-- A name of plain characters at any depth is read as these characters. -/
theorem ofIgnorePattern_name (name : List Char) (h : ∀ c ∈ name, isPlain c = true) :
    ofIgnorePattern (String.ofList ("**/".toList ++ name)) =
      .ok ⟨.leading :: name.map .literal, true⟩ := by
  have hfirst : readPiece true {} '*' ('*' :: '/' :: name) =
      .ok ({ ({} : Reader) with previous := some '/' }.push .leading, name) := rfl
  obtain ⟨r, hread, hbranches⟩ := readAll_plain true name h (2 + name.length)
    ({ ({} : Reader) with previous := some '/' }.push .leading) [.leading] (by omega) rfl rfl
  have hall : readAll true (3 + name.length) {} ('*' :: '*' :: '/' :: name) = .ok r := by
    rw [show 3 + name.length = (2 + name.length) + 1 by omega, readAll, hfirst]
    exact hread
  have hlength : (String.ofList ("**/".toList ++ name)).length = 3 + name.length := by
    rw [String.length_ofList, List.length_append]
    rfl
  obtain ⟨branches, groups, previous, literalBrackets⟩ := r
  obtain rfl : branches = [(name.map Token.literal).reverse ++ [.leading]] := hbranches
  rw [ofIgnorePattern, read, hlength, String.toList_ofList]
  rw [show "**/".toList ++ name = '*' :: '*' :: '/' :: name from rfl, hall]
  simp [Except.map]

end Glob

end Synopsis

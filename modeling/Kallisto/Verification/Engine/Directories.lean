import Kallisto.Verification.Engine.Listing

/-! # Listings of directories -/

namespace Kallisto.Engine

open Index

variable {B : Type} {part : List Char} {dir : String}

/-! ## First parts -/

theorem firstPart_of_not_mem {cs : List Char} (h : '/' ∉ cs) :
    firstPart (.ofList cs) = some (.ofList cs) := by
  rw [firstPart, String.toList_ofList, List.splitOn_eq_singleton h]

theorem firstPart_append_slash (h : '/' ∉ part) (rest : List Char) :
    firstPart (.ofList (part ++ '/' :: rest)) = some (.ofList part ++ "/") := by
  rw [firstPart, String.toList_ofList, List.splitOn_append_cons_self_of_not_mem h]
  cases hsplit : rest.splitOn '/' with
  | nil => exact absurd hsplit (List.splitOn_ne_nil '/' rest)
  | cons _ _ => rfl

/-- A text has no separator, or a first one. -/
theorem separator_cases (sep : Char) (cs : List Char) :
    sep ∉ cs ∨ ∃ part rest, sep ∉ part ∧ cs = part ++ sep :: rest := by
  by_cases h : sep ∈ cs
  · obtain ⟨part, rest, heq, hnot⟩ := List.eq_append_cons_of_mem h
    exact Or.inr ⟨part, rest, hnot, heq⟩
  · exact Or.inl h

theorem ofList_append_slash (part rest : List Char) :
    String.ofList (part ++ '/' :: rest) = .ofList part ++ "/" ++ .ofList rest := by
  rw [← String.toList_inj]
  simp

/-! ## What a stored path adds -/

/-- The part of a path that is listed, after the directory and its slash. -/
def stripSlash (rest : List Char) : List Char :=
  if rest.head? = some '/' then rest.tail else rest

theorem listedKey_append (hdir : dir ≠ "") (rest : List Char) :
    listedKey dir (dir ++ .ofList rest) =
      if stripSlash rest = [] then none else firstPart (.ofList (stripSlash rest)) := by
  have hpre : dir.toList.isPrefixOf (dir ++ .ofList rest).toList = true := by
    rw [List.isPrefixOf_iff_prefix, String.toList_append]
    exact List.prefix_append _ _
  have hdrop : (dir ++ .ofList rest).toList.drop dir.length = rest := by
    rw [String.toList_append, String.toList_ofList, ← String.length_toList, List.drop_left]
  unfold listedKey
  rw [if_neg hdir, hdrop]
  split
  · rfl
  · next hshort =>
      have hnil : rest = [] := by
        by_contra hne
        have hlength : 0 < rest.length := List.length_pos_iff.mpr hne
        refine hshort ⟨hpre, ?_⟩
        rw [String.length_append, String.length_ofList]
        omega
      rw [hnil]
      rfl

/-- Only paths that continue the directory are listed. -/
theorem eq_append_of_listedKey {stored key : String} (hdir : dir ≠ "")
    (h : listedKey dir stored = some key) : ∃ rest, stored = dir ++ .ofList rest := by
  unfold listedKey at h
  rw [if_neg hdir] at h
  split at h
  · next hpre =>
      obtain ⟨rest, hrest⟩ := List.isPrefixOf_iff_prefix.mp hpre.1
      refine ⟨rest, ?_⟩
      rw [← String.toList_inj, String.toList_append, String.toList_ofList, hrest]
  · cases h

theorem mem_listKeys {s : KvEngine B} {pre : String} {keys : List String}
    (h : s.listKeys pre = some keys) (key : String) :
    key ∈ keys ↔ ∃ path ∈ s.pathIndex, listedKey pre path = some key := by
  rw [listKeys_eq] at h
  obtain rfl := Option.some.inj h
  simp [List.mem_filterMap]

/-! ## Children -/

/-- The key is a path under the directory, or with its slash the beginning of one. -/
def IsChild (paths : List String) (dir key : String) : Prop :=
  (key.toList.getLast? ≠ some '/' → dir ++ "/" ++ key ∈ paths) ∧
    (key.toList.getLast? = some '/' → ∃ rest, dir ++ "/" ++ key ++ rest ∈ paths)

/-- Paths that only begin with the name of the directory have a namesake under it. -/
structure Shadowed (paths : List String) (dir : String) : Prop where
  leaf : ∀ part, part ≠ "" → '/' ∉ part.toList → dir ++ part ∈ paths →
    dir ++ "/" ++ part ∈ paths
  branch : ∀ part rest, part ≠ "" → '/' ∉ part.toList → dir ++ part ++ "/" ++ rest ∈ paths →
    ∃ rest', dir ++ "/" ++ part ++ "/" ++ rest' ∈ paths

theorem isChild_leaf {paths : List String} (h : '/' ∉ part)
    (hmem : dir ++ "/" ++ .ofList part ∈ paths) : IsChild paths dir (.ofList part) := by
  refine ⟨fun _ => hmem, fun hlast => ?_⟩
  rw [String.toList_ofList] at hlast
  exact absurd (List.mem_of_getLast? hlast) h

theorem isChild_branch {paths : List String} (rest : String)
    (hmem : dir ++ "/" ++ .ofList part ++ "/" ++ rest ∈ paths) :
    IsChild paths dir (.ofList part ++ "/") := by
  refine ⟨fun hlast => absurd (by simp) hlast, fun _ => ⟨rest, ?_⟩⟩
  rwa [← String.append_assoc]

theorem stripSlash_of_ne (hne : part ≠ []) (h : '/' ∉ part) (rest : List Char) :
    stripSlash (part ++ rest) = part ++ rest := by
  cases part with
  | nil => exact absurd rfl hne
  | cons c part =>
    refine if_neg fun hhead => h ?_
    rw [Option.some.inj hhead]
    exact List.mem_cons_self

/-- A path under the directory adds a child. -/
theorem isChild_of_slash {paths : List String} {key : String} {rest : List Char}
    (hmem : dir ++ .ofList ('/' :: rest) ∈ paths) (h : firstPart (.ofList rest) = some key) :
    IsChild paths dir key := by
  rw [show '/' :: rest = [] ++ '/' :: rest from rfl, ofList_append_slash, String.ofList_nil,
    String.empty_append, ← String.append_assoc] at hmem
  rcases separator_cases '/' rest with hnot | ⟨part, rest', hnot, rfl⟩
  · rw [firstPart_of_not_mem hnot] at h
    obtain rfl := Option.some.inj h
    exact isChild_leaf hnot hmem
  · rw [firstPart_append_slash hnot] at h
    obtain rfl := Option.some.inj h
    refine isChild_branch (.ofList rest') ?_
    rwa [ofList_append_slash, ← String.append_assoc, ← String.append_assoc] at hmem

/-- So does any other path, when it has a namesake. -/
theorem isChild_of_shadowed {paths : List String} {key : String} (hshadowed : Shadowed paths dir)
    {rest : List Char} (hne : rest ≠ []) (hhead : rest.head? ≠ some '/')
    (hmem : dir ++ .ofList rest ∈ paths) (h : firstPart (.ofList rest) = some key) :
    IsChild paths dir key := by
  rcases separator_cases '/' rest with hnot | ⟨part, rest', hnot, rfl⟩
  · rw [firstPart_of_not_mem hnot] at h
    obtain rfl := Option.some.inj h
    refine isChild_leaf hnot (hshadowed.leaf _ ?_ ?_ hmem)
    · rwa [Ne, ← String.toList_inj, String.toList_ofList]
    · rwa [String.toList_ofList]
  · rw [firstPart_append_slash hnot] at h
    obtain rfl := Option.some.inj h
    have hpart : part ≠ [] := by
      rintro rfl
      exact hhead rfl
    have hmem' : dir ++ .ofList part ++ "/" ++ .ofList rest' ∈ paths := by
      rwa [ofList_append_slash, ← String.append_assoc, ← String.append_assoc] at hmem
    obtain ⟨rest'', hrest⟩ := hshadowed.branch (.ofList part) (.ofList rest')
      (by rwa [Ne, ← String.toList_inj, String.toList_ofList])
      (by rwa [String.toList_ofList]) hmem'
    exact isChild_branch rest'' hrest

section Listed

variable {s : KvEngine B} {dir : String} {keys : List String}

/-- Paths that begin with the name of the directory are listed, whatever follows. -/
theorem mem_listKeys_of_append (hdir : dir ≠ "") (hkeys : s.listKeys dir = some keys)
    (rest : List Char) {key : String} (hne : part ≠ []) (hnot : '/' ∉ part)
    (hmem : dir ++ .ofList (part ++ rest) ∈ s.pathIndex)
    (hfirst : firstPart (.ofList (part ++ rest)) = some key) : key ∈ keys := by
  refine (mem_listKeys hkeys key).mpr ⟨_, hmem, ?_⟩
  rw [listedKey_append hdir, stripSlash_of_ne hne hnot, hfirst, if_neg]
  exact fun hnil => hne (List.append_eq_nil_iff.mp hnil).1

theorem shadowed_of_children (hdir : dir ≠ "") (hkeys : s.listKeys dir = some keys)
    (hchildren : ∀ key ∈ keys, IsChild s.pathIndex dir key) : Shadowed s.pathIndex dir where
  leaf part hne hnot hmem := by
    have hlast : part.toList.getLast? ≠ some '/' := fun h => hnot (List.mem_of_getLast? h)
    refine (hchildren part ?_).1 hlast
    refine mem_listKeys_of_append hdir hkeys [] (mt String.toList_eq_nil_iff.mp hne) hnot ?_ ?_
    · rwa [List.append_nil, String.ofList_toList]
    · rw [List.append_nil, firstPart_of_not_mem hnot, String.ofList_toList]
  branch part rest hne hnot hmem := by
    have hkey : part ++ "/" ∈ keys := by
      refine mem_listKeys_of_append hdir hkeys ('/' :: rest.toList)
        (mt String.toList_eq_nil_iff.mp hne) hnot ?_ ?_
      · rwa [ofList_append_slash, String.ofList_toList, String.ofList_toList, ← String.append_assoc,
          ← String.append_assoc]
      · rw [firstPart_append_slash hnot, String.ofList_toList]
    obtain ⟨rest', hrest⟩ := (hchildren _ hkey).2 (by simp)
    exact ⟨rest', by rwa [← String.append_assoc] at hrest⟩

theorem children_of_shadowed (hdir : dir ≠ "") (hkeys : s.listKeys dir = some keys)
    (hshadowed : Shadowed s.pathIndex dir) : ∀ key ∈ keys, IsChild s.pathIndex dir key := by
  intro key hkey
  obtain ⟨path, hmem, hlisted⟩ := (mem_listKeys hkeys key).mp hkey
  obtain ⟨rest, rfl⟩ := eq_append_of_listedKey hdir hlisted
  rw [listedKey_append hdir] at hlisted
  split at hlisted
  · cases hlisted
  · next hne =>
      cases rest with
      | nil => exact absurd rfl hne
      | cons c rest =>
        by_cases hslash : c = '/'
        · subst hslash
          exact isChild_of_slash hmem hlisted
        · have hhead : (c :: rest).head? ≠ some '/' := fun h => hslash (Option.some.inj h)
          rw [stripSlash, if_neg hhead] at hlisted
          exact isChild_of_shadowed hshadowed (List.cons_ne_nil c rest) hhead hmem hlisted

end Listed

/-- A listing has only children of the directory if and only if every path that merely begins
with its name has a namesake under it. -/
theorem listKeys_children (s : KvEngine B) (dir : String) (hdir : dir ≠ "") :
    (∃ keys, s.listKeys dir = some keys ∧ ∀ key ∈ keys, IsChild s.pathIndex dir key) ↔
      Shadowed s.pathIndex dir := by
  constructor
  · rintro ⟨keys, hkeys, hchildren⟩
    exact shadowed_of_children hdir hkeys hchildren
  · intro hshadowed
    exact ⟨_, listKeys_eq s dir, children_of_shadowed hdir (listKeys_eq s dir) hshadowed⟩

/-- No path merely begins with the name of the directory. -/
theorem shadowed_of_slash {paths : List String}
    (h : ∀ rest : List Char, dir ++ .ofList rest ∈ paths → rest = [] ∨ rest.head? = some '/') :
    Shadowed paths dir := by
  have hcontra : ∀ (part : String) (rest : List Char), part ≠ "" → '/' ∉ part.toList →
      dir ++ .ofList (part.toList ++ rest) ∉ paths := by
    intro part rest hne hnot hmem
    cases hpart : part.toList with
    | nil => exact hne (String.toList_eq_nil_iff.mp hpart)
    | cons c cs =>
      rw [hpart] at hnot hmem
      rcases h _ hmem with hnil | hhead
      · cases hnil
      · exact hnot (List.mem_of_mem_head? hhead)
  constructor
  · intro part hne hnot hmem
    refine absurd ?_ (hcontra part [] hne hnot)
    rwa [List.append_nil, String.ofList_toList]
  · intro part rest hne hnot hmem
    refine absurd ?_ (hcontra part ('/' :: rest.toList) hne hnot)
    rwa [ofList_append_slash, String.ofList_toList, String.ofList_toList, ← String.append_assoc,
      ← String.append_assoc]

/-- An engine with the given paths. -/
def withPaths (paths : List String) : KvEngine Record :=
  .opened (fun _ => none) .immediate paths

theorem listKeys_children_nested :
    ∃ keys, (withPaths ["a/b", "c"]).listKeys "a" = some keys ∧
      ∀ key ∈ keys, IsChild ["a/b", "c"] "a" key := by
  refine (listKeys_children (withPaths ["a/b", "c"]) "a" (by decide)).mpr ?_
  refine shadowed_of_slash fun rest hmem => Or.inr ?_
  change "a" ++ .ofList rest ∈ ["a/b", "c"] at hmem
  simp only [← String.toList_inj, List.mem_cons, String.toList_append] at hmem
  simp_all

/-- The path `ab` is listed as `b` in the directory `a`. -/
theorem listKeys_stranger :
    (withPaths ["ab"]).listKeys "a" = some ["b"] ∧ ¬ IsChild ["ab"] "a" "b" := by
  refine ⟨by decide +kernel, fun h => ?_⟩
  exact absurd (h.1 (by decide)) (by decide)

/-! ## Byte offsets -/

theorem sliceFrom_append (s t : String) : sliceFrom (s ++ t) s.utf8ByteSize = some t := by
  have hvalid : (⟨s.utf8ByteSize⟩ : String.Pos.Raw).IsValid (s ++ t) :=
    String.Pos.Raw.isValid_iff_exists_append.mpr ⟨s, t, rfl, rfl⟩
  have hsplits : String.Pos.Splits (s := s ++ t) ⟨⟨s.utf8ByteSize⟩, hvalid⟩ s t := ⟨rfl, rfl⟩
  rw [sliceFrom, dif_pos hvalid, hsplits.copy_sliceFrom_eq]

/-- The slice is at the start of a character whenever it is taken. -/
theorem listedKeyBytes_eq (pre stored : String) :
    listedKeyBytes pre stored = some (listedKey pre stored) := by
  unfold listedKeyBytes
  by_cases hempty : pre = ""
  · subst hempty
    rfl
  · have hpre : ¬ pre.isEmpty = true := by rwa [String.isEmpty_iff]
    rw [if_neg hpre]
    by_cases hstarts : stored.startsWith pre = true
    · obtain ⟨rest, hrest⟩ := String.startsWith_string_iff.mp hstarts
      obtain rfl : stored = pre ++ .ofList rest := by
        rw [← String.toList_inj, String.toList_append, String.toList_ofList, hrest]
      rw [sliceFrom_append, listedKey_append hempty]
      by_cases hnil : rest = []
      · subst hnil
        rw [String.ofList_nil, String.append_empty, if_neg fun h => lt_irrefl _ h.2]
        rfl
      · have hsize : (String.ofList rest).utf8ByteSize ≠ 0 := by
          rw [Ne, String.utf8ByteSize_eq_zero_iff, ← String.toList_inj, String.toList_ofList]
          exact hnil
        have hlonger : pre.utf8ByteSize < (pre ++ .ofList rest).utf8ByteSize := by
          rw [String.utf8ByteSize_append]
          omega
        rw [if_pos ⟨hstarts, hlonger⟩, Option.map_some, String.toList_ofList]
        rfl
    · have hnone : listedKey pre stored = none := by
        by_contra h
        obtain ⟨key, hkey⟩ := Option.ne_none_iff_exists'.mp h
        obtain ⟨rest, rfl⟩ := eq_append_of_listedKey hempty hkey
        refine hstarts (String.startsWith_string_iff.mpr ?_)
        rw [String.toList_append]
        exact List.prefix_append _ _
      rw [if_neg fun h => hstarts h.1, hnone]

/-- No slice of a listing panics. -/
theorem listKeysBytes_eq (s : KvEngine B) (pre : String) : s.listKeysBytes pre = s.listKeys pre := by
  unfold KvEngine.listKeysBytes KvEngine.listKeys
  refine congrArg (s.pathTree >>= ·) (funext fun manager => ?_)
  refine congrArg (manager.getAllPaths >>= ·) (funext fun paths => ?_)
  have hmap : paths.mapM (listedKeyBytes pre) = some (paths.map (listedKey pre)) := by
    rw [funext (listedKeyBytes_eq pre)]
    exact List.mapM_pure
  rw [hmap]
  change some _ = some _
  rw [List.filterMap_map, Function.id_comp]

theorem listKeys_increasing {s : KvEngine B} {pre : String} {keys : List String}
    (h : s.listKeys pre = some keys) : keys.Pairwise (· < ·) := by
  rw [listKeys_eq] at h
  obtain rfl := Option.some.inj h
  generalize ((s.pathIndex.toFinset.sort (· ≤ ·)).filterMap (listedKey pre)).dedup = listed,
    List.nodup_dedup ((s.pathIndex.toFinset.sort (· ≤ ·)).filterMap (listedKey pre)) = hlisted
  have hsorted : (listed.mergeSort fun a b => a ≤ b).Pairwise fun a b => decide (a ≤ b) = true :=
    List.pairwise_mergeSort (by simpa using fun a b c => le_trans)
      (by simpa using fun a b => le_total a b) listed
  have hnodup : (listed.mergeSort fun a b => a ≤ b).Nodup :=
    (List.mergeSort_perm listed _).nodup_iff.mpr hlisted
  refine (hsorted.and hnodup).imp fun {a b} h => lt_of_le_of_ne ?_ h.2
  exact of_decide_eq_true h.1

/-! ## Every segment is listed -/

/-- The key under which a segment is listed. -/
def segmentKey (segments : List String) (i : ℕ) : String :=
  segments.getD i "" ++ if i + 1 < segments.length then "/" else ""

theorem firstPart_intercalate {part : String} (parts : List String) (h : '/' ∉ part.toList) :
    firstPart ("/".intercalate (part :: parts)) = some (segmentKey (part :: parts) 0) := by
  cases parts with
  | nil =>
    have hpart := firstPart_of_not_mem h
    rw [String.ofList_toList] at hpart
    rw [String.intercalate_singleton, hpart]
    simp [segmentKey]
  | cons next parts =>
    have hpart := firstPart_append_slash h ("/".intercalate (next :: parts)).toList
    rw [ofList_append_slash, String.ofList_toList, String.ofList_toList] at hpart
    rw [String.intercalate_cons_cons, hpart]
    simp [segmentKey]

/-- What remains of a path after a directory and its slash is listed by its first part. -/
theorem listedKey_directory {rest : String} (hdir : dir ≠ "") (hrest : rest ≠ "")
    (hhead : rest.toList.head? ≠ some '/') {pre : String} (hpre : pre = dir ∨ pre = dir ++ "/") :
    listedKey pre (dir ++ "/" ++ rest) = firstPart rest := by
  have hnil : rest.toList ≠ [] := mt String.toList_eq_nil_iff.mp hrest
  rcases hpre with rfl | rfl
  · have hpath : pre ++ "/" ++ rest = pre ++ .ofList ('/' :: rest.toList) := by
      rw [← String.toList_inj]
      simp
    rw [hpath, listedKey_append hdir]
    change (if rest.toList = [] then none else firstPart (.ofList rest.toList)) = _
    rw [if_neg hnil, String.ofList_toList]
  · have hne : dir ++ "/" ≠ "" := by
      rw [Ne, ← String.toList_inj]
      simp
    have hlisted := listedKey_append hne rest.toList
    rw [String.ofList_toList, stripSlash, if_neg hhead, if_neg hnil, String.ofList_toList] at hlisted
    exact hlisted

theorem intercalate_eq_append (part : String) (parts : List String) :
    ∃ rest, "/".intercalate (part :: parts) = part ++ rest := by
  cases parts with
  | nil => exact ⟨"", by rw [String.intercalate_singleton, String.append_empty]⟩
  | cons next parts => exact ⟨_, by rw [String.intercalate_cons_cons, String.append_assoc]⟩

/-- A path of segments is not empty and does not begin with a slash. -/
theorem intercalate_head {part : String} (parts : List String) (hne : part ≠ "")
    (hnot : '/' ∉ part.toList) :
    "/".intercalate (part :: parts) ≠ "" ∧
      ("/".intercalate (part :: parts)).toList.head? ≠ some '/' := by
  obtain ⟨rest, hrest⟩ := intercalate_eq_append part parts
  cases hpart : part.toList with
  | nil => exact absurd (String.toList_eq_nil_iff.mp hpart) hne
  | cons c cs =>
    rw [hpart] at hnot
    rw [hrest, Ne, ← String.toList_inj, String.toList_append, hpart]
    refine ⟨List.cons_ne_nil _ _, fun hhead => hnot ?_⟩
    rw [Option.some.inj hhead]
    exact List.mem_cons_self

theorem segmentKey_drop {segments : List String} {i : ℕ} (hi : i < segments.length) :
    segmentKey (segments.drop i) 0 = segmentKey segments i := by
  unfold segmentKey
  rw [List.length_drop, List.getD_eq_getElem?_getD, List.getD_eq_getElem?_getD,
    List.getElem?_drop, Nat.add_zero]
  have hlonger : 0 + 1 < segments.length - i ↔ i + 1 < segments.length := by omega
  simp only [hlonger]

/-- A path of segments is listed in each of its directories under the next segment. -/
theorem listedKey_segments {segments : List String}
    (hsegments : ∀ part ∈ segments, part ≠ "" ∧ '/' ∉ part.toList) {i : ℕ}
    (hi : i < segments.length) {pre : String} (hpre : pre = "/".intercalate (segments.take i) ∨
      0 < i ∧ pre = "/".intercalate (segments.take i) ++ "/") :
    listedKey pre ("/".intercalate segments) = some (segmentKey segments i) := by
  have hdrop : segments.drop i = segments[i] :: segments.drop (i + 1) :=
    List.drop_eq_getElem_cons hi
  obtain ⟨hne, hnot⟩ := hsegments _ (List.getElem_mem hi)
  have hfirst : firstPart ("/".intercalate (segments.drop i)) = some (segmentKey segments i) := by
    rw [← segmentKey_drop hi, hdrop, firstPart_intercalate _ hnot]
  rcases Nat.eq_zero_or_pos i with rfl | hpos
  · rcases hpre with rfl | ⟨hpos, -⟩
    · exact hfirst
    · exact absurd hpos (lt_irrefl 0)
  · have htake : segments.take i ≠ [] := by
      rw [Ne, List.take_eq_nil_iff]
      rintro (rfl | rfl)
      · exact absurd hpos (lt_irrefl 0)
      · exact absurd hi (Nat.not_lt_zero i)
    obtain ⟨first, others, hfirst'⟩ := List.exists_cons_of_ne_nil htake
    have hdir : "/".intercalate (segments.take i) ≠ "" := by
      have hmem : first ∈ segments := List.mem_of_mem_take (hfirst' ▸ List.mem_cons_self)
      rw [hfirst']
      exact (intercalate_head others (hsegments first hmem).1 (hsegments first hmem).2).1
    have hpath : "/".intercalate segments =
        "/".intercalate (segments.take i) ++ "/" ++ "/".intercalate (segments.drop i) := by
      rw [← String.intercalate_append_of_ne_nil htake (by rw [hdrop]; exact List.cons_ne_nil _ _),
        List.take_append_drop]
    have hrest := intercalate_head (segments.drop (i + 1)) hne hnot
    rw [← hdrop] at hrest
    rw [hpath, listedKey_directory hdir hrest.1 hrest.2 (hpre.imp_right And.right), hfirst]

/-- Every listing is increasing, no slice panics, and each directory of a stored path lists
its next segment. -/
theorem listKeys_complete (s : KvEngine B) :
    (∀ pre, ∃ keys, s.listKeysBytes pre = some keys ∧ keys.Pairwise (· < ·)) ∧
      ∀ (segments : List String) (i : ℕ) (pre : String), i < segments.length →
        (∀ part ∈ segments, part ≠ "" ∧ '/' ∉ part.toList) →
        "/".intercalate segments ∈ s.pathIndex →
        (pre = "/".intercalate (segments.take i) ∨
          0 < i ∧ pre = "/".intercalate (segments.take i) ++ "/") →
        ∃ keys, s.listKeysBytes pre = some keys ∧ segmentKey segments i ∈ keys := by
  constructor
  · intro pre
    rw [listKeysBytes_eq]
    exact ⟨_, listKeys_eq s pre, listKeys_increasing (listKeys_eq s pre)⟩
  · intro segments i pre hi hsegments hmem hpre
    rw [listKeysBytes_eq]
    refine ⟨_, listKeys_eq s pre, (mem_listKeys (listKeys_eq s pre) _).mpr ⟨_, hmem, ?_⟩⟩
    exact listedKey_segments hsegments hi hpre

theorem listKeys_complete_accents :
    ∃ keys, (withPaths ["é/b/c", "éb"]).listKeysBytes "é/" = some keys ∧ "b/" ∈ keys :=
  (listKeys_complete (withPaths ["é/b/c", "éb"])).2 ["é", "b", "c"] 1 "é/" (by decide) (by decide)
    (by decide) (by decide)

end Kallisto.Engine

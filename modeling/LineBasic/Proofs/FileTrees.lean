import Mathlib.Data.List.Nodup
import LineBasic.FileTree
import LineBasic.Proofs.Coherence

namespace LineBasic

namespace FileTree

variable {t t' u : FileTree} {path name : String} {place other : List String} {node : Node}
  {bytes : ByteArray}

theorem lookup_filter_of_ne {nodes : List (List String × Node)} (h : other ≠ place) :
    (nodes.filter fun entry => entry.1 != place).lookup other = nodes.lookup other := by
  induction nodes with
  | nil => rfl
  | cons entry nodes ih =>
      rcases entry with ⟨key, node⟩
      by_cases hkey : key = place
      · have hother : (other == key) = false := beq_eq_false_iff_ne.mpr (hkey ▸ h)
        rw [List.filter_cons_of_neg (by simpa using hkey), ih, List.lookup_cons, hother]
      · rw [List.filter_cons_of_pos (by simpa using hkey), List.lookup_cons, List.lookup_cons, ih]

theorem node?_put (hplace : place ≠ []) (other : List String) :
    (t.put place node).node? other = if other = place then some node else t.node? other := by
  cases other with
  | nil => rw [if_neg (Ne.symm hplace)]; rfl
  | cons first rest =>
      change List.lookup (first :: rest) ((place, node) :: _) = _
      rw [List.lookup_cons]
      by_cases heq : first :: rest = place
      · rw [if_pos heq, beq_iff_eq.mpr heq]
      · rw [if_neg heq, beq_eq_false_iff_ne.mpr heq]
        exact lookup_filter_of_ne heq

theorem isDirectory_iff : t.isDirectory place = true ↔ t.node? place = some .directory := by
  unfold isDirectory
  split
  · rename_i h
    simp [h]
  · rename_i h
    simpa using h

theorem enter_eq_ok_iff : t.enter place = .ok () ↔ t.isDirectory place = true := by
  unfold enter isDirectory
  rcases t.node? place with _ | _ | _ <;> simp

structure IsFileName (name : String) : Prop where
  ne_empty : name ≠ ""
  ne_dot : name ≠ "."
  ne_dots : name ≠ ".."
  no_slash : '/' ∉ name.toList

/-- A path leads to a place. Nothing need be there. -/
def LeadsTo (t : FileTree) (path : String) (place : List String) : Prop :=
  check path = .ok () ∧ t.walk (t.start path) (names path) = .ok place

def next? (place : List String) (name : String) : Option (List String) :=
  if isStay name then some place
  else if name = ".." then some place.dropLast
  else if maxNameLength < name.utf8ByteSize then none
  else some (place ++ [name])

theorem walk_cons_eq_ok_iff {names : List String} :
    t.walk place (name :: names) = .ok other ↔
      t.isDirectory place = true ∧ ∃ next, next? place name = some next ∧
        t.walk next names = .ok other := by
  rw [← enter_eq_ok_iff, walk, next?]
  simp only [bind, Except.bind]
  cases t.enter place with
  | error e => simp
  | ok =>
      dsimp only
      split
      · simp
      · split
        · simp
        · split <;> simp

theorem walk_append_eq_ok_iff {front back : List String} :
    t.walk place (front ++ back) = .ok other ↔
      ∃ mid, t.walk place front = .ok mid ∧ t.walk mid back = .ok other := by
  induction front generalizing place with
  | nil => simp [walk]
  | cons name front ih =>
      simp only [List.cons_append, walk_cons_eq_ok_iff, ih]
      constructor
      · rintro ⟨hdirectory, next, hnext, mid, hfront, hback⟩
        exact ⟨mid, ⟨hdirectory, next, hnext, hfront⟩, hback⟩
      · rintro ⟨mid, ⟨hdirectory, next, hnext, hfront⟩, hback⟩
        exact ⟨hdirectory, next, hnext, mid, hfront, hback⟩

theorem walk_singleton_eq_ok_iff (hname : IsFileName name) :
    t.walk place [name] = .ok other ↔
      t.isDirectory place = true ∧ name.utf8ByteSize ≤ maxNameLength ∧ other = place ++ [name] := by
  have hstay : ¬isStay name = true := by
    simp [isStay, hname.ne_empty, hname.ne_dot]
  rw [walk_cons_eq_ok_iff, next?, if_neg hstay, if_neg hname.ne_dots]
  constructor
  · rintro ⟨hdirectory, next, hnext, ⟨⟩⟩
    split at hnext
    · cases hnext
    · rename_i hshort
      exact ⟨hdirectory, Nat.not_lt.mp hshort, (Option.some.inj hnext).symm⟩
  · rintro ⟨hdirectory, hshort, rfl⟩
    exact ⟨hdirectory, _, if_neg (Nat.not_lt.mpr hshort), rfl⟩

theorem find_eq_ok_iff :
    t.find path = .ok (place, node) ↔ t.LeadsTo path place ∧ t.node? place = some node := by
  unfold find LeadsTo
  cases hcheck : check path with
  | error e => simp [bind, Except.bind]
  | ok =>
      cases hwalk : t.walk (t.start path) (names path) with
      | error e => simp [bind, Except.bind]
      | ok found =>
          simp only [bind, Except.bind, true_and, Except.ok.injEq]
          cases hnode : t.node? found with
          | none =>
              simp only [reduceCtorEq, false_iff, not_and]
              rintro rfl
              simp [hnode]
          | some node' =>
              simp only [pure, Except.pure, Except.ok.injEq, Prod.mk.injEq]
              constructor
              · rintro ⟨rfl, rfl⟩
                exact ⟨rfl, hnode⟩
              · rintro ⟨rfl, h⟩
                exact ⟨rfl, Option.some.inj (hnode.symm.trans h)⟩

theorem read_eq_ok_iff :
    t.read path = .ok bytes ↔ ∃ place, t.find path = .ok (place, .file bytes) := by
  unfold read
  rcases t.find path with e | ⟨place, bytes' | _⟩ <;> simp [bind, Except.bind, pure, Except.pure]

/-- Every directory of the first tree is one of the second, and relative paths start at the same place. -/
structure Within (t t' : FileTree) : Prop where
  here_eq : t'.here = t.here
  isDirectory : ∀ place, t.isDirectory place = true → t'.isDirectory place = true

namespace Within

theorem walk (h : t.Within t') {names : List String} (hwalk : t.walk place names = .ok other) :
    t'.walk place names = .ok other := by
  induction names generalizing place with
  | nil => exact hwalk
  | cons name names ih =>
      obtain ⟨hdirectory, next, hnext, hrest⟩ := walk_cons_eq_ok_iff.mp hwalk
      exact walk_cons_eq_ok_iff.mpr ⟨h.isDirectory place hdirectory, next, hnext, ih hrest⟩

theorem leadsTo (h : t.Within t') (hpath : t.LeadsTo path place) : t'.LeadsTo path place := by
  refine ⟨hpath.1, ?_⟩
  have hstart : t'.start path = t.start path := by rw [start, start, h.here_eq]
  rw [hstart]
  exact h.walk hpath.2

end Within

theorem no_slash_of_mem_namesFrom {word cs : List Char} (hword : '/' ∉ word)
    (h : name ∈ namesFrom word cs) : '/' ∉ name.toList := by
  induction cs generalizing word with
  | nil =>
      rw [namesFrom, List.mem_singleton] at h
      simpa [h] using hword
  | cons c cs ih =>
      rw [namesFrom] at h
      split at h
      · rcases List.mem_cons.mp h with rfl | h
        · simpa using hword
        · exact ih List.not_mem_nil h
      · rename_i hc
        exact ih (by simp [hword, Ne.symm hc]) h

theorem dropEmptyEnd_prefix_names (names : List String) : dropEmptyEnd names <+: names := by
  have h := List.dropWhile_suffix (l := names.reverse) (· == "")
  rw [← List.reverse_prefix, List.reverse_reverse] at h
  exact h

theorem ne_empty_of_dropEmptyEnd {names front : List String}
    (h : dropEmptyEnd names = front ++ [name]) : name ≠ "" := by
  rintro rfl
  have hreverse : names.reverse.dropWhile (· == "") = "" :: front.reverse := by
    rw [← List.reverse_reverse (List.dropWhile _ _), ← dropEmptyEnd, h]
    simp
  have hhead := List.head?_dropWhile_not (· == "") names.reverse
  rw [hreverse] at hhead
  simp at hhead

theorem exists_of_site {slash : Bool} (h : t.site path = .ok (.vacant place name slash)) :
    ∃ front, dropEmptyEnd (names path) = front ++ [name] ∧ check path = .ok () ∧
      t.walk (t.start path) front = .ok place ∧ t.isDirectory place = true ∧ name ≠ "." ∧
      name ≠ ".." ∧ slash = decide ((front ++ [name]).length < (names path).length) := by
  unfold site at h
  obtain ⟨⟨⟩, hcheck, h⟩ := Stmt.bind_eq_ok h
  dsimp only at h
  split at h
  · cases h
  · rename_i last hlast
    obtain ⟨front, hfront⟩ := List.getLast?_eq_some_iff.mp hlast
    rw [hfront, List.dropLast_concat] at h
    obtain ⟨found, hwalk, h⟩ := Stmt.bind_eq_ok h
    obtain ⟨⟨⟩, henter, h⟩ := Stmt.bind_eq_ok h
    split at h
    · cases h
    · rename_i hdots
      cases h
      simp only [Bool.or_eq_true, decide_eq_true_eq, not_or] at hdots
      exact ⟨front, hfront, hcheck, hwalk, enter_eq_ok_iff.mp henter, hdots.1, hdots.2, rfl⟩

theorem leadsTo_of_site (h : t.site path = .ok (.vacant place name false))
    (hshort : name.utf8ByteSize ≤ maxNameLength) :
    IsFileName name ∧ t.LeadsTo path (place ++ [name]) := by
  obtain ⟨front, hfront, hcheck, hwalk, hplace, hdot, hdots, hslash⟩ := exists_of_site h
  -- Without a slash at the end no empty name was dropped there.
  have hall : names path = front ++ [name] := by
    have hle := of_decide_eq_false hslash.symm
    rw [← hfront] at hle ⊢
    exact ((dropEmptyEnd_prefix_names _).eq_of_length_le (Nat.not_lt.mp hle)).symm
  have hmem : name ∈ names path := hall ▸ List.mem_append_right _ List.mem_cons_self
  have hname : IsFileName name :=
    ⟨ne_empty_of_dropEmptyEnd hfront, hdot, hdots, no_slash_of_mem_namesFrom List.not_mem_nil hmem⟩
  refine ⟨hname, hcheck, ?_⟩
  rw [hall]
  exact walk_append_eq_ok_iff.mpr
    ⟨place, hwalk, (walk_singleton_eq_ok_iff hname).mpr ⟨hplace, hshort, rfl⟩⟩

theorem of_placeIn (h : placeIn place name = .ok other) :
    name.utf8ByteSize ≤ maxNameLength ∧ other = place ++ [name] := by
  unfold placeIn at h
  split at h
  · cases h
  · rename_i hshort
    cases h
    exact ⟨Nat.not_lt.mp hshort, rfl⟩

/-- A file is put at the place that the path leads to, which is no directory. -/
structure Writes (t : FileTree) (path : String) (bytes : ByteArray) (front : List String)
    (name : String) (t' : FileTree) : Prop where
  leadsTo : t.LeadsTo path (front ++ [name])
  isFileName : IsFileName name
  isDirectory_eq : t.isDirectory (front ++ [name]) = false
  eq_put : t' = t.put (front ++ [name]) (.file bytes)

theorem exists_writes (h : t.write path bytes = .ok t') :
    ∃ front name, t.Writes path bytes front name t' := by
  unfold write at h
  obtain ⟨site, hsite, h⟩ := Stmt.bind_eq_ok h
  rcases site with ⟨place, name, _ | _⟩ | _
  · obtain ⟨other, hplaced, h⟩ := Stmt.bind_eq_ok h
    obtain ⟨hshort, rfl⟩ := of_placeIn hplaced
    split at h
    · cases h
    · rename_i hdirectory
      cases h
      obtain ⟨hname, hleads⟩ := leadsTo_of_site hsite hshort
      exact ⟨place, name, hleads, hname, by simpa using hdirectory, rfl⟩
  · cases h
  · cases h

namespace Writes

variable {front : List String} (h : t.Writes path bytes front name t')

include h

theorem node? (other : List String) :
    t'.node? other = if other = front ++ [name] then some (.file bytes) else t.node? other := by
  rw [h.eq_put, node?_put (by simp)]

theorem isDirectory (other : List String) : t'.isDirectory other = t.isDirectory other := by
  rw [Bool.eq_iff_iff, isDirectory_iff, isDirectory_iff, h.node?]
  by_cases heq : other = front ++ [name]
  · subst heq
    have hnone : t.node? (front ++ [name]) ≠ some .directory := by
      rw [ne_eq, ← isDirectory_iff, h.isDirectory_eq]
      exact Bool.false_ne_true
    simp [hnone]
  · rw [if_neg heq]

theorem within : t.Within t' :=
  ⟨by rw [h.eq_put]; rfl, fun other hother => by rwa [h.isDirectory]⟩

theorem within_before : t'.Within t :=
  ⟨by rw [h.eq_put]; rfl, fun other hother => by rwa [h.isDirectory] at hother⟩

theorem find_self : t'.find path = .ok (front ++ [name], .file bytes) := by
  refine find_eq_ok_iff.mpr ⟨h.within.leadsTo h.leadsTo, ?_⟩
  rw [h.node?, if_pos rfl]

/-- What a path finds is found again, if it is not what was written. -/
theorem find_of_ne {path' : String} (hfind : t.find path' = .ok (place, node))
    (hne : place ≠ front ++ [name]) : t'.find path' = .ok (place, node) := by
  obtain ⟨hleads, hnode⟩ := find_eq_ok_iff.mp hfind
  refine find_eq_ok_iff.mpr ⟨h.within.leadsTo hleads, ?_⟩
  rw [h.node?, if_neg hne, hnode]

/-- A path that leads to what was written finds it. -/
theorem find_of_eq {path' : String} (hleads : t.LeadsTo path' (front ++ [name])) :
    t'.find path' = .ok (front ++ [name], .file bytes) := by
  refine find_eq_ok_iff.mpr ⟨h.within.leadsTo hleads, ?_⟩
  rw [h.node?, if_pos rfl]

theorem find_directory_iff {path' : String} :
    t'.find path' = .ok (place, .directory) ↔ t.find path' = .ok (place, .directory) := by
  rw [find_eq_ok_iff, find_eq_ok_iff, ← isDirectory_iff, ← isDirectory_iff, h.isDirectory]
  exact and_congr_left fun _ => ⟨h.within_before.leadsTo, h.within.leadsTo⟩

end Writes

/-- The second tree has everything that the first one has, and only directories besides. -/
structure AddsDirectories (t t' : FileTree) : Prop where
  here_eq : t'.here = t.here
  node? : ∀ place node, t.node? place = some node → t'.node? place = some node
  file : ∀ place bytes, t'.node? place = some (.file bytes) → t.node? place = some (.file bytes)

namespace AddsDirectories

theorem refl (t : FileTree) : t.AddsDirectories t :=
  ⟨rfl, fun _ _ => id, fun _ _ => id⟩

theorem trans (h : t.AddsDirectories t') (h' : t'.AddsDirectories u) : t.AddsDirectories u where
  here_eq := h'.here_eq.trans h.here_eq
  node? place node hnode := h'.node? place node (h.node? place node hnode)
  file place bytes hfile := h.file place bytes (h'.file place bytes hfile)

theorem within (h : t.AddsDirectories t') : t.Within t' :=
  ⟨h.here_eq, fun place hplace =>
    isDirectory_iff.mpr (h.node? place .directory (isDirectory_iff.mp hplace))⟩

theorem find (h : t.AddsDirectories t') (hfind : t.find path = .ok (place, node)) :
    t'.find path = .ok (place, node) := by
  obtain ⟨hleads, hnode⟩ := find_eq_ok_iff.mp hfind
  exact find_eq_ok_iff.mpr ⟨h.within.leadsTo hleads, h.node? place node hnode⟩

theorem put (hplace : place ≠ []) (hnone : t.node? place = none) :
    t.AddsDirectories (t.put place .directory) where
  here_eq := rfl
  node? other node hnode := by
    rw [node?_put hplace, if_neg ?_, hnode]
    rintro rfl
    rw [hnone] at hnode
    cases hnode
  file other bytes hfile := by
    rw [node?_put hplace] at hfile
    split at hfile
    · cases hfile
    · exact hfile

theorem of_makeDirectory (h : t.makeDirectory path = .ok t') : t.AddsDirectories t' := by
  unfold makeDirectory at h
  obtain ⟨site, -, h⟩ := Stmt.bind_eq_ok h
  rcases site with ⟨place, name, slash⟩ | _
  · obtain ⟨other, hplaced, h⟩ := Stmt.bind_eq_ok h
    obtain ⟨-, rfl⟩ := of_placeIn hplaced
    split at h
    · cases h
    · rename_i hnone
      cases h
      exact put (by simp) hnone
  · cases h

theorem ensureDirectory (t : FileTree) (path : String) :
    t.AddsDirectories (t.ensureDirectory path).2 := by
  unfold FileTree.ensureDirectory
  cases hmake : t.makeDirectory path with
  | error e => exact refl t
  | ok t' => exact of_makeDirectory hmake

theorem createDirectoryIn (fuel : Nat) (t : FileTree) (path : String) :
    t.AddsDirectories (createDirectoryIn fuel t path).2 := by
  induction fuel generalizing t path with
  | zero => exact refl t
  | succ fuel ih =>
      rw [FileTree.createDirectoryIn]
      split
      · exact refl t
      · split
        · rename_i parent _ _
          have hparent := ih t parent
          split <;> rename_i hcreate <;> rw [hcreate] at hparent
          · exact hparent.trans (ensureDirectory _ path)
          · exact hparent
        · exact ensureDirectory t path

theorem createDirectory (t : FileTree) (path : String) :
    t.AddsDirectories (t.createDirectory path).2 :=
  createDirectoryIn _ t path

end AddsDirectories

/-- Nothing is in the tree twice, and everything in it has a name. -/
structure IsProper (t : FileTree) : Prop where
  distinct : (t.nodes.map Prod.fst).Nodup
  named : ∀ place node name, (place, node) ∈ t.nodes → place.getLast? = some name → IsFileName name

theorem eq_of_child {entry : List String × Node} {child : String × Node}
    (h : (match entry.1.getLast? with
      | some name => if entry.1.dropLast == place then some (name, entry.2) else none
      | none => none) = some child) : entry = (place ++ [child.1], child.2) := by
  split at h
  · rename_i name hlast
    obtain ⟨front, hfront⟩ := List.getLast?_eq_some_iff.mp hlast
    rw [hfront, List.dropLast_concat] at h
    obtain ⟨hplace, hchild⟩ := Option.ite_none_right_eq_some.mp h
    cases hchild
    exact Prod.ext (by rw [hfront, beq_iff_eq.mp hplace]) rfl
  · cases h

namespace IsProper

theorem put (h : t.IsProper) (hname : IsFileName name) (node : Node) :
    (t.put (place ++ [name]) node).IsProper where
  distinct := by
    refine List.nodup_cons.mpr ⟨fun hmem => ?_, ?_⟩
    · obtain ⟨entry, hentry, heq⟩ := List.mem_map.mp hmem
      have hne := (List.mem_filter.mp hentry).2
      rw [heq] at hne
      simp at hne
    · exact h.distinct.sublist (List.filter_sublist.map Prod.fst)
  named other node' last hmem hlast := by
    rcases List.mem_cons.mp hmem with heq | hmem
    · cases heq
      rw [List.getLast?_concat] at hlast
      cases hlast
      exact hname
    · exact h.named other node' last (List.mem_filter.mp hmem).1 hlast

theorem lookup_eq_some_iff {nodes : List (List String × Node)} (h : (nodes.map Prod.fst).Nodup) :
    nodes.lookup place = some node ↔ (place, node) ∈ nodes := by
  induction nodes with
  | nil => simp
  | cons entry nodes ih =>
      rcases entry with ⟨key, other⟩
      obtain ⟨hkey, hrest⟩ := List.nodup_cons.mp h
      rw [List.lookup_cons, List.mem_cons, Prod.mk.injEq]
      by_cases heq : place = key
      · subst heq
        have hnone : (place, node) ∉ nodes := fun hmem => hkey (List.mem_map.mpr ⟨_, hmem, rfl⟩)
        simp [hnone, eq_comm]
      · rw [beq_eq_false_iff_ne.mpr heq]
        simp [heq, ih hrest]

theorem node?_concat_iff (h : t.IsProper) :
    t.node? (place ++ [name]) = some node ↔ (place ++ [name], node) ∈ t.nodes := by
  have hnode : t.node? (place ++ [name]) = t.nodes.lookup (place ++ [name]) := if_neg (by simp)
  rw [hnode, lookup_eq_some_iff h.distinct]

theorem isFileName (h : t.IsProper) (hnode : t.node? (place ++ [name]) = some node) : IsFileName name :=
  h.named _ node name (h.node?_concat_iff.mp hnode) List.getLast?_concat

theorem mem_children_iff (h : t.IsProper) :
    (name, node) ∈ t.children place ↔ t.node? (place ++ [name]) = some node := by
  rw [h.node?_concat_iff, children, List.mem_filterMap]
  constructor
  · rintro ⟨entry, hmem, hchild⟩
    rwa [eq_of_child hchild] at hmem
  · exact fun hmem => ⟨_, hmem, by simp⟩

/-- No name stands for two things in a directory. -/
theorem nodup_children (h : t.IsProper) (place : List String) :
    ((t.children place).map Prod.fst).Nodup := by
  have hnodup : (t.children place).Nodup := by
    refine (List.Nodup.of_map _ h.distinct).filterMap fun entry entry' child hchild hchild' => ?_
    rw [eq_of_child hchild, eq_of_child hchild']
  refine List.Nodup.map_on ?_ hnodup
  rintro ⟨name, node⟩ hmem ⟨name', node'⟩ hmem' heq
  obtain rfl : name = name' := heq
  have hsome := (h.mem_children_iff.mp hmem).symm.trans (h.mem_children_iff.mp hmem')
  rw [Option.some.inj hsome]

end IsProper

theorem Writes.isProper {front : List String} (h : t.Writes path bytes front name t')
    (hproper : t.IsProper) : t'.IsProper :=
  h.eq_put ▸ hproper.put h.isFileName _

theorem namesFrom_append (word front back : List Char) :
    namesFrom word (front ++ '/' :: back) = namesFrom word front ++ namesFrom [] back := by
  induction front generalizing word with
  | nil => simp [namesFrom]
  | cons c front ih =>
      rw [List.cons_append, namesFrom, namesFrom]
      split
      · rw [ih, List.cons_append]
      · exact ih _

theorem namesFrom_of_no_slash {cs : List Char} (h : '/' ∉ cs) (word : List Char) :
    namesFrom word cs = [String.ofList (word.reverse ++ cs)] := by
  induction cs generalizing word with
  | nil => rw [namesFrom, List.append_nil]
  | cons c cs ih =>
      obtain ⟨hc, hcs⟩ := not_or.mp (mt List.mem_cons.mpr h)
      rw [namesFrom, if_neg (Ne.symm hc), ih hcs]
      simp

def stem (base : String) : List String :=
  match base.toList.getLast? with
  | none | some '/' => (names base).dropLast
  | some _ => names base

theorem isAbsolute_of_no_slash (h : '/' ∉ name.toList) : Path.isAbsolute name = false := by
  rw [Path.isAbsolute, beq_eq_false_iff_ne]
  exact fun hhead => h (List.mem_of_head? hhead)

theorem stem_of_getLast? {base : String} {c : Char} (h : base.toList.getLast? = some c)
    (hc : c ≠ '/') : stem base = names base := by
  unfold stem
  rw [h]
  split
  · rename_i heq
    cases heq
  · rename_i heq
    exact absurd (Option.some.inj heq) hc
  · rfl

theorem names_join (base : String) (h : '/' ∉ name.toList) :
    names (Path.join base name) = stem base ++ [name] := by
  have hname : namesFrom [] name.toList = [name] := by
    rw [namesFrom_of_no_slash h]
    simp
  unfold Path.join
  rw [if_neg (by simp [isAbsolute_of_no_slash h])]
  rcases List.eq_nil_or_concat base.toList with hbase | ⟨front, c, hbase⟩
  · simp [stem, names, hbase, hname, namesFrom]
  · rw [List.concat_eq_append] at hbase
    have hlast : base.toList.getLast? = some c := by rw [hbase, List.getLast?_concat]
    by_cases hc : c = '/'
    · subst hc
      have hjoined : (base ++ name).toList = front ++ '/' :: name.toList := by simp [hbase]
      rw [stem, hlast]
      change namesFrom [] (base ++ name).toList = (namesFrom [] base.toList).dropLast ++ [name]
      rw [hjoined, hbase, namesFrom_append, namesFrom_append, hname]
      simp [namesFrom]
    · have hjoined : (base ++ "/" ++ name).toList = front ++ [c] ++ '/' :: name.toList := by
        simp [hbase]
      rw [stem_of_getLast? hlast hc, hlast]
      split
      · rename_i heq
        cases heq
      · rename_i heq
        exact absurd (Option.some.inj heq) hc
      · rw [names, names, hjoined, hbase, namesFrom_append, hname]

theorem isAbsolute_join (base : String) (h : '/' ∉ name.toList) :
    Path.isAbsolute (Path.join base name) = Path.isAbsolute base := by
  unfold Path.join
  rw [if_neg (by simp [isAbsolute_of_no_slash h])]
  rcases hbase : base.toList with _ | ⟨c, rest⟩
  · simpa [Path.isAbsolute, hbase] using isAbsolute_of_no_slash h
  · split <;> simp [Path.isAbsolute, hbase]

theorem stem_join (base : String) (hname : IsFileName name) :
    stem (Path.join base name) = names (Path.join base name) := by
  have hne : name.toList ≠ [] := fun h => hname.ne_empty (String.toList_eq_nil_iff.mp h)
  have hlast : (Path.join base name).toList.getLast? = some (name.toList.getLast hne) := by
    rw [← List.getLast?_eq_some_getLast hne]
    unfold Path.join
    rw [if_neg (by simp [isAbsolute_of_no_slash hname.no_slash])]
    split <;> simp only [String.toList_append, List.getLast?_append_of_ne_nil _ hne]
  refine stem_of_getLast? hlast fun hslash => hname.no_slash ?_
  rw [← hslash]
  exact List.getLast_mem hne

/-- A name that is joined to a path leads into the directory that the path without it leads to. -/
theorem leadsTo_join {base : String} (hname : IsFileName name) (h : t.LeadsTo (Path.join base name) place) :
    ∃ front, t.walk (t.start base) (stem base) = .ok front ∧ t.isDirectory front = true ∧
      place = front ++ [name] := by
  have hwalk := h.2
  rw [names_join base hname.no_slash, start, isAbsolute_join base hname.no_slash, ← start] at hwalk
  obtain ⟨front, hfront, hlast⟩ := walk_append_eq_ok_iff.mp hwalk
  obtain ⟨hdirectory, -, hplace⟩ := (walk_singleton_eq_ok_iff hname).mp hlast
  exact ⟨front, hfront, hdirectory, hplace⟩

/-- A name that is joined to the path of a directory leads into that directory. -/
theorem eq_concat_of_leadsTo {base directory : String} (hdirectory : IsFileName directory)
    (hname : IsFileName name) (hbase : t.LeadsTo (Path.join base directory) other)
    (h : t.LeadsTo (Path.join (Path.join base directory) name) place) : place = other ++ [name] := by
  obtain ⟨front, hfront, -, hplace⟩ := leadsTo_join hname h
  rw [stem_join base hdirectory, hbase.2] at hfront
  cases hfront
  exact hplace

/-- There is a file of the given name directly in the directory that a path leads to. -/
def HasFile (t : FileTree) (path name : String) (bytes : ByteArray) : Prop :=
  ∃ place, t.find path = .ok (place, .directory) ∧ t.node? (place ++ [name]) = some (.file bytes)

end FileTree

end LineBasic

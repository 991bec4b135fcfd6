import LineBasic.Proofs.FileTrees
import LineBasic.Proofs.Saving

namespace LineBasic

open FileTree (IsFileName)

variable {σ : Type}

section Operations

variable {α β : Type} {s u : σ}

theorem exists_of_run_bind {operation : ExceptT Error (StateM σ) α}
    {next : α → ExceptT Error (StateM σ) β} {b : β}
    (h : (operation >>= next).run.run s = (.ok b, u)) :
    ∃ a t, operation.run.run s = (.ok a, t) ∧ (next a).run.run t = (.ok b, u) := by
  rcases hrun : operation.run.run s with ⟨e | a, t⟩
  · rw [run_bind_error hrun] at h
    cases h
  · rw [run_bind_ok hrun] at h
    exact ⟨a, t, rfl, h⟩

theorem run_bind_liftM {operation : StateM σ α} {next : α → ExceptT Error (StateM σ) β} :
    ((liftM operation : ExceptT Error (StateM σ) α) >>= next).run.run s =
      (next (operation.run s).1).run.run (operation.run s).2 :=
  rfl

theorem forall₂_of_mapM {f : α → ExceptT Error (StateM σ) β} {P : σ → Prop} {Q : α → β → Prop}
    (hf : ∀ a s b u, P s → (f a).run.run s = (.ok b, u) → P u ∧ Q a b) {as : List α} {bs : List β}
    (hs : P s) (h : (as.mapM f).run.run s = (.ok bs, u)) : P u ∧ List.Forall₂ Q as bs := by
  induction as generalizing s bs with
  | nil =>
      rw [List.mapM_nil] at h
      cases h
      exact ⟨hs, .nil⟩
  | cons a as ih =>
      rw [List.mapM_cons] at h
      obtain ⟨b, t, hfirst, h⟩ := exists_of_run_bind h
      obtain ⟨bs', t', hrest, h⟩ := exists_of_run_bind h
      cases h
      obtain ⟨ht, hQ⟩ := hf a s b t hs hfirst
      obtain ⟨hu, hQs⟩ := ih ht hrest
      exact ⟨hu, .cons hQ hQs⟩

theorem exists_of_mem_right {Q : α → β → Prop} {as : List α} {bs : List β} {b : β}
    (h : List.Forall₂ Q as bs) (hb : b ∈ bs) : ∃ a ∈ as, Q a b := by
  induction h with
  | nil => cases hb
  | cons hQ _ ih =>
      rcases List.mem_cons.mp hb with rfl | hb
      · exact ⟨_, List.mem_cons_self, hQ⟩
      · obtain ⟨a, ha, hQ⟩ := ih hb
        exact ⟨a, List.mem_cons_of_mem _ ha, hQ⟩

end Operations

def Node.isDirectory : Node → Bool
  | file _ => false
  | directory => true

/-- A storage keeps a tree of files in its states: what succeeds does to the tree what it does to one in memory. Copying a file
writes the bytes of its source into the target. -/
structure Storage.Keeps (storage : Storage (StateM σ)) (tree : σ → FileTree) : Prop where
  read : ∀ path bytes s u, (storage.read path).run.run s = (.ok bytes, u) →
    (tree s).read path = .ok bytes ∧ tree u = tree s
  write : ∀ path bytes s u, (storage.write path bytes).run.run s = (.ok (), u) →
    (tree s).write path bytes = .ok (tree u)
  list : ∀ path entries s u, (storage.list path).run.run s = (.ok entries, u) →
    tree u = tree s ∧ ∃ place, (tree s).find path = .ok (place, .directory) ∧
      (entries.map fun e => (e.name, e.isDirectory)).Perm
        (((tree s).children place).map fun child => (child.1, child.2.isDirectory))
  copy : ∀ source target size s u, (storage.copy source target).run.run s = (.ok size, u) →
    ∃ bytes, (tree s).read source = .ok bytes ∧ (tree s).write target bytes = .ok (tree u)
  createDirectory : ∀ path s u, (storage.createDirectory path).run.run s = (.ok (), u) →
    tree u = ((tree s).createDirectory path).2
  exists? : ∀ path s, ((storage.exists? path).run s).1 = (tree s).contains path ∧
    tree ((storage.exists? path).run s).2 = tree s
  now : ∀ s, tree (storage.now.run s).2 = tree s

namespace Asset

def spot (a : Asset) : AssetKind × String :=
  (a.kind, a.name)

/-- The second list is the first one with the asset instead of the first one that has the same place, or behind them all. -/
inductive Stored (a : Asset) : List Asset → List Asset → Prop where
  | replaced {front back : List Asset} {old : Asset} (hfront : ∀ b ∈ front, b.spot ≠ a.spot)
      (hold : old.spot = a.spot) : Stored a (front ++ old :: back) (front ++ a :: back)
  | appended {assets : List Asset} (hnone : ∀ b ∈ assets, b.spot ≠ a.spot) :
      Stored a assets (assets ++ [a])

theorem isAt_iff {a b : Asset} : a.isAt b = true ↔ b.spot = a.spot := by
  rw [isAt, Bool.and_eq_true, decide_eq_true_eq, decide_eq_true_eq, spot, spot, Prod.mk.injEq]
  exact and_congr eq_comm eq_comm

theorem stored_store (a : Asset) (assets : List Asset) : a.Stored assets (a.store assets) := by
  induction assets with
  | nil => exact .appended nofun
  | cons b bs ih =>
      rw [store]
      split
      · rename_i hat
        exact @Stored.replaced a [] bs b nofun (isAt_iff.mp hat)
      · rename_i hat
        have hb : b.spot ≠ a.spot := mt isAt_iff.mpr hat
        generalize a.store bs = stored at ih
        cases ih with
        | @replaced front back old hfront hold =>
            exact @Stored.replaced a (b :: front) back old (List.forall_mem_cons.mpr ⟨hb, hfront⟩) hold
        | appended hnone =>
            exact @Stored.appended a (b :: bs) (List.forall_mem_cons.mpr ⟨hb, hnone⟩)

theorem Stored.nodup {a : Asset} {assets assets' : List Asset} (h : a.Stored assets assets')
    (hnodup : (assets.map spot).Nodup) : (assets'.map spot).Nodup := by
  cases h with
  | replaced hfront hold =>
      rw [List.map_append, List.map_cons] at hnodup ⊢
      rwa [← hold]
  | appended hnone =>
      rw [List.map_append, List.map_singleton]
      refine hnodup.append (List.nodup_singleton _) ?_
      rw [List.disjoint_singleton]
      intro hmem
      obtain ⟨b, hb, heq⟩ := List.mem_map.mp hmem
      exact hnone b hb heq

theorem Stored.eq_singleton {a : Asset} {assets : List Asset} (h : a.Stored [] assets) :
    assets = [a] := by
  generalize hnil : [] = before at h
  cases h with
  | replaced hfront hold => simp at hnil
  | appended hnone =>
      subst hnil
      rfl

end Asset

namespace Cart

/-- The assets are the files in the directories of these kinds. -/
structure Lists (tree : FileTree) (root : String) (kinds : List AssetKind) (assets : List Asset) :
    Prop where
  kind_mem : ∀ a ∈ assets, a.kind ∈ kinds
  nodup : (assets.map Asset.spot).Nodup
  mem_iff : ∀ kind ∈ kinds, ∀ name checksum, { kind, name, checksum } ∈ assets ↔
    ∃ bytes, tree.HasFile (directory root kind) name bytes ∧ checksum = Checksum.ofBytes bytes

theorem isFileName_kind (kind : AssetKind) : IsFileName kind.name := by
  cases kind <;> exact ⟨by decide, by decide, by decide, by decide⟩

theorem isFileName_manifestFile : IsFileName manifestFile :=
  ⟨by decide, by decide, by decide, by decide⟩

theorem Lists.append {tree : FileTree} {root : String} {kind : AssetKind} {kinds : List AssetKind}
    {assets rest : List Asset} (h : Lists tree root [kind] assets) (hrest : Lists tree root kinds rest)
    (hkind : kind ∉ kinds) : Lists tree root (kind :: kinds) (assets ++ rest) where
  kind_mem a ha := by
    rcases List.mem_append.mp ha with ha | ha
    · exact List.mem_cons.mpr (.inl (List.mem_singleton.mp (h.kind_mem a ha)))
    · exact List.mem_cons_of_mem _ (hrest.kind_mem a ha)
  nodup := by
    rw [List.map_append]
    refine h.nodup.append hrest.nodup fun pair hpair hpair' => ?_
    obtain ⟨a, ha, rfl⟩ := List.mem_map.mp hpair
    obtain ⟨b, hb, heq⟩ := List.mem_map.mp hpair'
    have hkinds := hrest.kind_mem b hb
    rw [(Prod.mk.inj heq).1, List.mem_singleton.mp (h.kind_mem a ha)] at hkinds
    exact hkind hkinds
  mem_iff other hother name checksum := by
    rw [List.mem_append]
    rcases List.mem_cons.mp hother with rfl | hother
    · rw [← h.mem_iff other (List.mem_singleton.mpr rfl)]
      exact or_iff_left fun hmem => hkind (hrest.kind_mem _ hmem)
    · rw [← hrest.mem_iff other hother]
      refine or_iff_right fun hmem => hkind ?_
      rwa [← List.mem_singleton.mp (h.kind_mem _ hmem)]

section

variable {storage : Storage (StateM σ)} {tree : σ → FileTree} {root : String} {kind : AssetKind}
  {s u : σ}

theorem node?_of_read {t : FileTree} {place : List String} {name : String} {bytes : ByteArray}
    (hplace : t.find (directory root kind) = .ok (place, .directory)) (hname : IsFileName name)
    (h : t.read (Path.join (directory root kind) name) = .ok bytes) :
    t.node? (place ++ [name]) = some (.file bytes) := by
  obtain ⟨found, hfind⟩ := FileTree.read_eq_ok_iff.mp h
  obtain ⟨hleads, hnode⟩ := FileTree.find_eq_ok_iff.mp hfind
  rwa [FileTree.eq_concat_of_leadsTo (isFileName_kind kind) hname
    (FileTree.find_eq_ok_iff.mp hplace).1 hleads] at hnode

theorem exists_of_checksumOf {file : String} {checksum : UInt32} (hstorage : storage.Keeps tree)
    (h : (checksumOf storage file).run.run s = (.ok checksum, u)) :
    ∃ bytes, (tree s).read file = .ok bytes ∧ checksum = Checksum.ofBytes bytes ∧
      tree u = tree s := by
  unfold checksumOf at h
  obtain ⟨bytes, t, hread, h⟩ := exists_of_run_bind h
  cases h
  obtain ⟨hbytes, htree⟩ := hstorage.read file bytes s _ hread
  exact ⟨bytes, hbytes, rfl, htree⟩

/-- An asset stands for a row of a directory. -/
def StandsFor (t : FileTree) (root : String) (kind : AssetKind) (e : Entry) (a : Asset) : Prop :=
  ∃ bytes, t.read (Path.join (directory root kind) e.name) = .ok bytes ∧
    a = { kind, name := e.name, checksum := Checksum.ofBytes bytes }

theorem standsFor_of_assetOf {e : Entry} {a : Asset} (hstorage : storage.Keeps tree)
    (h : (assetOf storage root kind e).run.run s = (.ok a, u)) :
    tree u = tree s ∧ StandsFor (tree s) root kind e a := by
  unfold assetOf at h
  obtain ⟨checksum, t, hchecksum, h⟩ := exists_of_run_bind h
  cases h
  obtain ⟨bytes, hread, rfl, htree⟩ := exists_of_checksumOf hstorage hchecksum
  exact ⟨htree, bytes, hread, rfl⟩

theorem lists_nil {t : FileTree} (h : t.contains (directory root kind) = false) :
    Lists t root [kind] [] where
  kind_mem := nofun
  nodup := .nil
  mem_iff other hother name checksum := by
    obtain rfl := List.mem_singleton.mp hother
    simp only [List.not_mem_nil, false_iff]
    rintro ⟨bytes, ⟨place, hfind, -⟩, -⟩
    rw [FileTree.contains, hfind] at h
    cases h

theorem lists_of_entries {t : FileTree} {place : List String} {entries : List Entry}
    {assets : List Asset} (hproper : t.IsProper)
    (hplace : t.find (directory root kind) = .ok (place, .directory))
    (hentries : (entries.map fun e => (e.name, e.isDirectory)).Perm
      ((t.children place).map fun child => (child.1, child.2.isDirectory)))
    (hassets : List.Forall₂ (StandsFor t root kind) (entries.filter fun e => !e.isDirectory) assets) :
    Lists t root [kind] assets := by
  have hnames : assets.map Asset.name = (entries.filter fun e => !e.isDirectory).map Entry.name := by
    rw [← List.forall₂_eq_eq_eq, List.forall₂_map_left_iff, List.forall₂_map_right_iff]
    refine (hassets.imp ?_).flip
    rintro e a ⟨bytes, -, rfl⟩
    rfl
  have hkind : ∀ a ∈ assets, a.kind = kind := by
    intro a ha
    obtain ⟨e, -, bytes, -, rfl⟩ := exists_of_mem_right hassets ha
    rfl
  have hfile {name : String} : (name, false) ∈ (entries.map fun e => (e.name, e.isDirectory)) ↔
      ∃ bytes, t.node? (place ++ [name]) = some (.file bytes) := by
    rw [hentries.mem_iff, List.mem_map]
    constructor
    · rintro ⟨⟨name', bytes | _⟩, hmem, heq⟩
      · cases heq
        exact ⟨bytes, hproper.mem_children_iff.mp hmem⟩
      · cases heq
    · rintro ⟨bytes, hnode⟩
      exact ⟨(name, .file bytes), hproper.mem_children_iff.mpr hnode, rfl⟩
  refine ⟨fun a ha => List.mem_singleton.mpr (hkind a ha), ?_, fun other hother name checksum => ?_⟩
  · refine List.Nodup.of_map Prod.snd ?_
    rw [List.map_map]
    change (assets.map Asset.name).Nodup
    rw [hnames]
    refine List.Nodup.sublist (List.filter_sublist.map Entry.name) ?_
    have hall := (hentries.map Prod.fst).nodup_iff
    rw [List.map_map, List.map_map] at hall
    exact hall.mpr (hproper.nodup_children place)
  · obtain rfl := List.mem_singleton.mp hother
    constructor
    · intro hmem
      obtain ⟨e, he, bytes, hread, heq⟩ := exists_of_mem_right hassets hmem
      obtain ⟨-, rfl, rfl⟩ := Asset.mk.inj heq
      obtain ⟨he, hisFile⟩ := List.mem_filter.mp he
      have hrow : (e.name, false) ∈ entries.map fun e => (e.name, e.isDirectory) :=
        List.mem_map.mpr ⟨e, he, by simpa using hisFile⟩
      obtain ⟨_, hnode⟩ := hfile.mp hrow
      exact ⟨bytes, ⟨place, hplace, node?_of_read hplace (hproper.isFileName hnode) hread⟩, rfl⟩
    · rintro ⟨bytes, ⟨place', hplace', hnode⟩, rfl⟩
      obtain ⟨rfl, -⟩ := Prod.mk.inj (Except.ok.inj (hplace.symm.trans hplace'))
      obtain ⟨e, he, heq⟩ := List.mem_map.mp (hfile.mpr ⟨bytes, hnode⟩)
      obtain ⟨rfl, hisFile⟩ := Prod.mk.inj heq
      have hmem : e ∈ entries.filter fun e => !e.isDirectory :=
        List.mem_filter.mpr ⟨he, by simpa using hisFile⟩
      obtain ⟨a, ha, bytes', hread, rfl⟩ := exists_of_mem_right hassets.flip hmem
      have hnode' := node?_of_read hplace (hproper.isFileName hnode) hread
      rw [hnode] at hnode'
      cases hnode'
      exact ha

theorem lists_of_scan (hstorage : storage.Keeps tree) (hproper : (tree s).IsProper)
    {assets : List Asset} (h : (scan storage root kind).run.run s = (.ok assets, u)) :
    tree u = tree s ∧ Lists (tree s) root [kind] assets := by
  obtain ⟨hcontains, htree⟩ := hstorage.exists? (directory root kind) s
  unfold scan at h
  dsimp only at h
  rw [run_bind_liftM, hcontains] at h
  cases hfound : (tree s).contains (directory root kind) with
  | false =>
      rw [hfound] at h
      cases h
      exact ⟨htree, lists_nil hfound⟩
  | true =>
      rw [hfound, if_pos rfl] at h
      obtain ⟨entries, t, hlist, h⟩ := exists_of_run_bind h
      obtain ⟨htree', place, hplace, hentries⟩ := hstorage.list _ entries _ t hlist
      rw [htree] at hplace hentries htree'
      obtain ⟨hlast, hassets⟩ := forall₂_of_mapM (P := fun u => tree u = tree s)
        (Q := StandsFor (tree s) root kind) (fun e s' a u' hs' hrun => by
          obtain ⟨hkept, hstands⟩ := standsFor_of_assetOf hstorage hrun
          rw [hs'] at hkept hstands
          exact ⟨hkept, hstands⟩) htree' h
      exact ⟨hlast, lists_of_entries hproper hplace hentries hassets⟩

theorem lists_of_mapM (hstorage : storage.Keeps tree) {kinds : List AssetKind} (hkinds : kinds.Nodup)
    (hproper : (tree s).IsProper) {found : List (List Asset)}
    (h : (kinds.mapM (scan storage root)).run.run s = (.ok found, u)) :
    tree u = tree s ∧ Lists (tree s) root kinds found.flatten := by
  induction kinds generalizing s found with
  | nil =>
      rw [List.mapM_nil] at h
      cases h
      exact ⟨rfl, nofun, .nil, nofun⟩
  | cons kind kinds ih =>
      rw [List.mapM_cons] at h
      obtain ⟨assets, t, hfirst, h⟩ := exists_of_run_bind h
      obtain ⟨found', t', hrest, h⟩ := exists_of_run_bind h
      cases h
      obtain ⟨hkind, hkinds⟩ := List.nodup_cons.mp hkinds
      obtain ⟨htree, hlists⟩ := lists_of_scan hstorage hproper hfirst
      obtain ⟨htree', hlists'⟩ := ih hkinds (htree ▸ hproper) hrest
      rw [htree] at hlists' htree'
      exact ⟨htree', hlists.append hlists' hkind⟩

theorem lists_of_rescan {cart : Cart} {program : String} (hstorage : storage.Keeps tree)
    (hproper : (tree s).IsProper) {assets : List Asset}
    (h : (cart.rescan storage program).run.run s = (.ok assets, u)) :
    (tree u).IsProper ∧ Lists (tree u) cart.root AssetKind.all assets := by
  unfold rescan at h
  obtain ⟨_, t, hwrite, h⟩ := exists_of_run_bind h
  obtain ⟨found, t', hscan, h⟩ := exists_of_run_bind h
  cases h
  obtain ⟨front, name, hwrites⟩ := FileTree.exists_writes (hstorage.write _ _ _ _ hwrite)
  have hproper' : (tree t).IsProper := hwrites.isProper hproper
  obtain ⟨htree, hlists⟩ := lists_of_mapM hstorage (by decide) hproper' hscan
  rw [htree]
  exact ⟨hproper', hlists⟩

theorem hasFile_iff_of_writes {t t' : FileTree} {bytes : ByteArray} {front : List String}
    {name : String} (h : t.Writes (place root manifestFile) bytes front name t') {name' : String}
    {bytes' : ByteArray} :
    t'.HasFile (directory root kind) name' bytes' ↔ t.HasFile (directory root kind) name' bytes' := by
  refine exists_congr fun found => ?_
  rw [h.find_directory_iff]
  refine and_congr_right fun hfind => ?_
  rw [h.node?, if_neg ?_]
  intro heq
  obtain ⟨base, hbase, -, hmanifest⟩ := FileTree.leadsTo_join isFileName_manifestFile h.leadsTo
  obtain ⟨base', hbase', -, hdirectory⟩ :=
    FileTree.leadsTo_join (isFileName_kind kind) (FileTree.find_eq_ok_iff.mp hfind).1
  rw [hbase] at hbase'
  cases hbase'
  rw [hmanifest, hdirectory] at heq
  -- The manifest is directly in the cart, and the files of a kind are one directory further down.
  simpa using congrArg List.length heq

theorem Lists.of_writes {t t' : FileTree} {bytes : ByteArray} {front : List String} {name : String}
    {kinds : List AssetKind} {assets : List Asset} (hlists : Lists t root kinds assets)
    (h : t.Writes (place root manifestFile) bytes front name t') : Lists t' root kinds assets where
  kind_mem := hlists.kind_mem
  nodup := hlists.nodup
  mem_iff kind hkind name checksum := by
    simp only [hasFile_iff_of_writes h]
    exact hlists.mem_iff kind hkind name checksum

theorem lists_of_save {cart cart' : Cart} {program : String} (hstorage : storage.Keeps tree)
    (hproper : (tree s).IsProper) (h : (cart.save storage program).run s = ((.ok (), cart'), u)) :
    cart'.root = cart.root ∧
      (tree u).read (place cart.root manifestFile) = .ok cart'.manifest.text.toUTF8 ∧
      Lists (tree u) cart.root AssetKind.all cart'.manifest.assets := by
  unfold save at h
  rcases hrescan : (cart.rescan storage program).run.run s with ⟨e | assets, t⟩ <;>
    rw [run_bind hrescan] at h
  · cases h
  · obtain ⟨-, hlists⟩ := lists_of_rescan hstorage hproper hrescan
    dsimp only at h
    rcases hnow : storage.now.run t with ⟨saved, t'⟩
    have htree := hstorage.now t
    rw [hnow] at htree
    rw [run_bind hnow] at h
    rcases hwrite : (writeManifest storage { cart with
      manifest := { cart.manifest with assets, saved := some saved } }).run.run t' with ⟨result, t''⟩
    rw [run_bind hwrite] at h
    cases h
    obtain ⟨front, name, hwrites⟩ := FileTree.exists_writes (hstorage.write _ _ _ _ hwrite)
    rw [htree] at hwrites
    exact ⟨rfl, FileTree.read_eq_ok_iff.mpr ⟨_, hwrites.find_self⟩, hlists.of_writes hwrites⟩

theorem exists_of_copy_checksum {source target name : String} {asset : Asset}
    (hstorage : storage.Keeps tree)
    (h : (do
      let _ ← storage.copy source target
      let checksum ← checksumOf storage target
      return ({ kind, name, checksum } : Asset) : ExceptT Error (StateM σ) Asset).run.run s =
        (.ok asset, u)) :
    ∃ (place : List String) (bytes : ByteArray) (front : List String) (last : String),
      (tree s).find source = .ok (place, .file bytes) ∧
      (tree s).Writes target bytes front last (tree u) ∧
      asset = { kind, name, checksum := Checksum.ofBytes bytes } := by
  obtain ⟨size, t, hcopy, h⟩ := exists_of_run_bind h
  obtain ⟨checksum, t', hchecksum, h⟩ := exists_of_run_bind h
  cases h
  obtain ⟨bytes, hread, hwrite⟩ := hstorage.copy _ _ _ _ _ hcopy
  obtain ⟨place, hfind⟩ := FileTree.read_eq_ok_iff.mp hread
  obtain ⟨front, last, hwrites⟩ := FileTree.exists_writes hwrite
  obtain ⟨bytes', hread', rfl, htree⟩ := exists_of_checksumOf hstorage hchecksum
  rw [FileTree.read_eq_ok_iff.mpr ⟨_, hwrites.find_self⟩] at hread'
  cases hread'
  exact ⟨place, bytes, front, last, hfind, htree ▸ hwrites, rfl⟩

theorem exists_of_takeIn {cart : Cart} {source name : String} {asset : Asset}
    (hstorage : storage.Keeps tree)
    (h : (cart.takeIn storage kind source name).run.run s = (.ok asset, u)) :
    ∃ (t : FileTree) (place : List String) (bytes : ByteArray) (front : List String) (last : String),
      (tree s).AddsDirectories t ∧ t.find source = .ok (place, .file bytes) ∧
      t.Writes (Path.join (directory cart.root kind) name) bytes front last (tree u) ∧
      asset = { kind, name, checksum := Checksum.ofBytes bytes } := by
  obtain ⟨-, htree⟩ := hstorage.exists? (directory cart.root kind) s
  unfold takeIn at h
  split at h
  · cases h
  · dsimp only at h
    rw [run_bind_liftM] at h
    split at h
    · obtain ⟨_, t, hcreate, h⟩ := exists_of_run_bind h
      have hadds := FileTree.AddsDirectories.createDirectory (tree s) (directory cart.root kind)
      rw [← htree, ← hstorage.createDirectory _ _ _ hcreate, htree] at hadds
      obtain ⟨place, bytes, front, last, hcopied⟩ := exists_of_copy_checksum hstorage h
      exact ⟨tree t, place, bytes, front, last, hadds, hcopied⟩
    · obtain ⟨place, bytes, front, last, hcopied⟩ := exists_of_copy_checksum hstorage h
      rw [htree] at hcopied
      exact ⟨tree s, place, bytes, front, last, .refl _, hcopied⟩

/-- What COPY makes of a cart and of the tree. The file that was copied is where it was before, with the bytes that it had, unless it
is the manifest. -/
theorem exists_of_copy {cart cart' : Cart} {source name : String} {asset : Asset}
    (hstorage : storage.Keeps tree)
    (h : (cart.copy storage kind source name).run s = ((.ok asset, cart'), u)) :
    ∃ (place : List String) (bytes : ByteArray),
      (tree s).node? place = some (.file bytes) ∧
      (∀ found, (tree s).find source = .ok found → found = (place, .file bytes)) ∧
      ((tree u).find source = .ok (place, .file bytes) ∨
        ∃ node, (tree u).find source = .ok (place, node) ∧
          (tree u).find (Cart.place cart.root manifestFile) = .ok (place, node)) ∧
      asset = { kind, name, checksum := Checksum.ofBytes bytes } ∧
      cart' = { cart with
        manifest := { cart.manifest with assets := asset.store cart.manifest.assets } } ∧
      (tree u).read (Cart.place cart.root manifestFile) = .ok cart'.manifest.text.toUTF8 := by
  unfold copy at h
  rcases htake : (cart.takeIn storage kind source name).run.run s with ⟨e | asset', t⟩ <;>
    rw [run_bind htake] at h
  · cases h
  · dsimp only at h
    rcases hwrite : (writeManifest storage { cart with
      manifest := { cart.manifest with assets := asset'.store cart.manifest.assets } }).run.run t with
      ⟨e | _, t'⟩ <;> rw [run_bind hwrite] at h
    · cases h
    · cases h
      obtain ⟨t₁, place, bytes, front, last, hadds, hsource, hcopied, hasset⟩ :=
        exists_of_takeIn hstorage htake
      obtain ⟨front', last', hwrites⟩ := FileTree.exists_writes (hstorage.write _ _ _ _ hwrite)
      obtain ⟨hleads, hnode⟩ := FileTree.find_eq_ok_iff.mp hsource
      refine ⟨place, bytes, hadds.file place bytes hnode, fun found hfound => ?_, ?_, hasset, rfl,
        FileTree.read_eq_ok_iff.mpr ⟨_, hwrites.find_self⟩⟩
      · exact Except.ok.inj ((hadds.find hfound).symm.trans hsource)
      · -- A copy onto its own source leaves the bytes that were there.
        have hkept : (tree t).find source = .ok (place, .file bytes) := by
          by_cases htarget : place = front ++ [last]
          · subst htarget
            exact hcopied.find_of_eq hleads
          · exact hcopied.find_of_ne hsource htarget
        by_cases hmanifest : place = front' ++ [last']
        · subst hmanifest
          exact .inr ⟨_, hwrites.find_of_eq (FileTree.find_eq_ok_iff.mp hkept).1, hwrites.find_self⟩
        · exact .inl (hwrites.find_of_ne hkept hmanifest)

end

end Cart

namespace Session

variable {storage : Storage (StateM σ)} {config : Config} {isRunning : Bool} {s s' : Session}
  {cart : Cart} {output : String} {u u' : σ}

theorem exists_of_onCart (hcart : s.cart = some cart)
    {operation : Cart → StateM σ (Except Error String × Cart)}
    (h : (s.onCart operation).run u = ((.ok output, s'), u')) :
    ∃ cart', s' = { s with cart := some cart' } ∧
      (operation cart).run u = ((.ok output, cart'), u') := by
  rcases hrun : (operation cart).run u with ⟨⟨result, cart'⟩, t⟩
  unfold onCart at h
  rw [hcart] at h
  dsimp only at h
  rw [run_bind hrun] at h
  cases h
  exact ⟨cart', rfl, rfl⟩

theorem exists_of_perform_saveCart (hcart : s.cart = some cart)
    (h : (s.perform config isRunning storage .saveCart).run u = ((.ok output, s'), u')) :
    ∃ cart', s' = { s with cart := some cart' } ∧
      (cart.save storage s.listing.text).run u = ((.ok (), cart'), u') := by
  obtain ⟨cart', hs', hsave⟩ := exists_of_onCart hcart h
  rcases hrun : (cart.save storage s.listing.text).run u with ⟨⟨e | _, cart''⟩, t⟩ <;>
    rw [saveCart, run_bind hrun] at hsave <;> cases hsave
  exact ⟨_, hs', rfl⟩

theorem exists_of_perform_copy {kind : AssetKind} {source name : String} (hcart : s.cart = some cart)
    (h : (s.perform config isRunning storage (.copy kind source name)).run u =
      ((.ok output, s'), u')) :
    ∃ asset cart', s' = { s with cart := some cart' } ∧
      (cart.copy storage kind (Path.join s.directory source) name).run u =
        ((.ok asset, cart'), u') := by
  obtain ⟨cart', hs', hcopy⟩ := exists_of_onCart hcart h
  rcases hrun : (cart.copy storage kind (Path.join s.directory source) name).run u with
    ⟨⟨e | asset, cart''⟩, t⟩ <;> rw [copyAsset, run_bind hrun] at hcopy <;> cases hcopy
  exact ⟨asset, _, hs', rfl⟩

end Session

open Cart in
/-- Let a storage keep a tree of files, and a cart be open. After a successful SAVECART, the manifest, in the cart and in its file,
lists each file that stands directly in one of the directories for assets once, with its kind and the checksum of its bytes, and
nothing else. After a successful COPY, the first asset of that kind and name, or a new one at the end, has the checksum of the bytes
that the source had before, and everything else in the manifest is as it was; no place occurs twice if none did before. The source
is still where it was with these bytes, unless it is the file of the manifest. -/
theorem manifest_exact {storage : Storage (StateM σ)} {tree : σ → FileTree}
    (hstorage : storage.Keeps tree) (config : Config) (isRunning : Bool) {s : Session} {cart : Cart}
    (hcart : s.cart = some cart) (u : σ) :
    ((tree u).IsProper → ∀ output s' u',
      (s.perform config isRunning storage .saveCart).run u = ((.ok output, s'), u') →
      ∃ manifest, s'.cart = some { cart with manifest } ∧
        (tree u').read (place cart.root manifestFile) = .ok manifest.text.toUTF8 ∧
        (manifest.assets.map Asset.spot).Nodup ∧
        ∀ kind name checksum, { kind, name, checksum } ∈ manifest.assets ↔
          ∃ bytes, (tree u').HasFile (directory cart.root kind) name bytes ∧
            checksum = Checksum.ofBytes bytes) ∧
    ∀ kind source name output s' u',
      (s.perform config isRunning storage (.copy kind source name)).run u =
        ((.ok output, s'), u') →
      ∃ (file : List String) (bytes : ByteArray) (assets : List Asset),
        (tree u).node? file = some (.file bytes) ∧
        (∀ found, (tree u).find (Path.join s.directory source) = .ok found →
          found = (file, .file bytes)) ∧
        s'.cart = some { cart with manifest := { cart.manifest with assets } } ∧
        (tree u').read (place cart.root manifestFile) =
          .ok (Manifest.text { cart.manifest with assets }).toUTF8 ∧
        Asset.Stored { kind, name, checksum := Checksum.ofBytes bytes } cart.manifest.assets assets ∧
        ((cart.manifest.assets.map Asset.spot).Nodup → (assets.map Asset.spot).Nodup) ∧
        ((tree u').find (Path.join s.directory source) = .ok (file, .file bytes) ∨
          ∃ node, (tree u').find (Path.join s.directory source) = .ok (file, node) ∧
            (tree u').find (place cart.root manifestFile) = .ok (file, node)) := by
  constructor
  · intro hproper output s' u' h
    obtain ⟨cart', rfl, hsave⟩ := Session.exists_of_perform_saveCart hcart h
    obtain ⟨hroot, hread, hlists⟩ := lists_of_save hstorage hproper hsave
    refine ⟨cart'.manifest, ?_, hread, hlists.nodup, fun kind name checksum => ?_⟩
    · rw [← hroot]
    · exact hlists.mem_iff kind (by cases kind <;> decide) name checksum
  · intro kind source name output s' u' h
    obtain ⟨asset, cart', rfl, hcopy⟩ := Session.exists_of_perform_copy hcart h
    obtain ⟨file, bytes, hnode, hfound, hsource, rfl, rfl, hread⟩ := exists_of_copy hstorage hcopy
    have hstored := Asset.stored_store { kind, name, checksum := Checksum.ofBytes bytes }
      cart.manifest.assets
    exact ⟨file, bytes, _, hnode, hfound, rfl, hread, hstored, hstored.nodup, hsource⟩

namespace FileTree

section

variable {α : Type} {t u : FileTree}

theorem eq_of_run {f : FileTree → Except FileError α × FileTree} {a : α}
    (h : (run f).run.run t = (.ok a, u)) : f t = (.ok a, u) := by
  change ((f t).1.mapError FileError.toError, (f t).2) = (.ok a, u) at h
  obtain ⟨hresult, hu⟩ := Prod.mk.inj h
  rcases hf : f t with ⟨e | b, t'⟩ <;> rw [hf] at hresult hu
  · cases hresult
  · cases hresult
    rw [← hu]

theorem eq_of_look {f : FileTree → Except FileError α} {a : α}
    (h : (look f).run.run t = (.ok a, u)) : f t = .ok a ∧ u = t := by
  obtain ⟨hresult, hu⟩ := Prod.mk.inj (eq_of_run h)
  exact ⟨hresult, hu.symm⟩

theorem eq_of_change {f : FileTree → Except FileError (α × FileTree)} {a : α}
    (h : (change f).run.run t = (.ok a, u)) : f t = .ok (a, u) := by
  have hrun := eq_of_run h
  split at hrun
  · rename_i hf
    cases hrun
    exact hf
  · cases hrun

theorem eq_of_update {f : FileTree → Except FileError FileTree}
    (h : (update f).run.run t = (.ok (), u)) : f t = .ok u := by
  have hchange := eq_of_change h
  cases hf : f t with
  | error e =>
      rw [hf] at hchange
      cases hchange
  | ok t' =>
      rw [hf] at hchange
      cases hchange
      rfl

end

/-- A file system in memory, in which no time passes, and which reads a file before it writes the copy. -/
def careful : Storage (StateM FileTree) :=
  { timeless with
    copy := fun source target => change fun t => do
      let bytes ← t.read source
      return (bytes.size, ← t.write target bytes) }

theorem keeps_careful : careful.Keeps id where
  read path bytes s u h := eq_of_look h
  write path bytes s u h := eq_of_update h
  list path entries s u h := by
    obtain ⟨hlist, rfl⟩ := eq_of_look h
    refine ⟨rfl, ?_⟩
    unfold list at hlist
    obtain ⟨⟨place, node⟩, hfind, hlist⟩ := Stmt.bind_eq_ok hlist
    obtain ⟨⟨⟩, henter, hlist⟩ := Stmt.bind_eq_ok hlist
    cases hlist
    obtain ⟨hleads, -⟩ := find_eq_ok_iff.mp hfind
    have hplace := isDirectory_iff.mp (enter_eq_ok_iff.mp henter)
    refine ⟨place, find_eq_ok_iff.mpr ⟨hleads, hplace⟩, ?_⟩
    refine ((List.mergeSort_perm _ _).map _).trans (List.Perm.of_eq ?_)
    rw [List.map_map]
    refine List.map_congr_left fun child _ => ?_
    rcases child with ⟨name, _ | _⟩ <;> rfl
  copy source target size s u h := by
    obtain ⟨bytes, hread, h⟩ := Stmt.bind_eq_ok (eq_of_change h)
    obtain ⟨t, hwrite, h⟩ := Stmt.bind_eq_ok h
    cases h
    exact ⟨bytes, hread, hwrite⟩
  createDirectory path s u h := by
    have hcreate : s.createDirectory path = (.ok (), u) := eq_of_run h
    rw [id, id, hcreate]
  exists? path s := ⟨rfl, rfl⟩
  now s := rfl

end FileTree

/-- A cart with an asset and without a manifest, and a file outside of it. -/
def cartTree : FileTree where
  nodes := [(["c"], .directory), (["c", "data"], .directory),
    (["c", "data", "y"], .file "hi".toUTF8), (["t"], .file "ho".toUTF8)]

def cartSession : Session :=
  { Session.new {} with
    cart := some { root := "./c", manifest := { name := "c", created := { seconds := 0 } } } }

theorem isProper_cartTree : cartTree.IsProper where
  distinct := by decide
  named place node name hmem hname := by
    simp only [cartTree, List.mem_cons, List.not_mem_nil, Prod.mk.injEq, or_false] at hmem
    rcases hmem with ⟨rfl, -⟩ | ⟨rfl, -⟩ | ⟨rfl, -⟩ | ⟨rfl, -⟩ <;> cases hname <;>
      exact ⟨by decide, by decide, by decide, by decide⟩

theorem exists_of_isSome {α β : Type} {result : (Except Error String × α) × β}
    (h : result.1.1.toOption.isSome) : ∃ output a b, result = ((.ok output, a), b) := by
  rcases result with ⟨⟨e | output, a⟩, b⟩
  · cases h
  · exact ⟨output, a, b, rfl⟩

open Cart in
/-- SAVECART lists the asset that is there; COPY lists the one that it makes. -/
theorem manifest_exact_cartTree :
    FileTree.careful.Keeps id ∧ cartTree.IsProper ∧
    (∃ output s' u' manifest,
      (cartSession.perform {} false FileTree.careful .saveCart).run cartTree =
        ((.ok output, s'), u') ∧
      s'.cart = some { root := "./c", manifest } ∧
      ∀ kind name checksum, { kind, name, checksum } ∈ manifest.assets ↔
        ∃ bytes, u'.HasFile (directory "./c" kind) name bytes ∧ checksum = Checksum.ofBytes bytes) ∧
    ∃ output s' u' manifest,
      (cartSession.perform {} false FileTree.careful (.copy .data "t" "x")).run cartTree =
        ((.ok output, s'), u') ∧
      s'.cart = some { root := "./c", manifest } ∧
      manifest.assets = [{ kind := .data, name := "x", checksum := Checksum.ofBytes "ho".toUTF8 }] := by
  have hsaved : ((cartSession.perform {} false FileTree.careful .saveCart).run
      cartTree).1.1.toOption.isSome := by
    decide +kernel
  have hcopied : ((cartSession.perform {} false FileTree.careful (.copy .data "t" "x")).run
      cartTree).1.1.toOption.isSome := by
    decide +kernel
  obtain ⟨output, s', u', hsave⟩ := exists_of_isSome hsaved
  obtain ⟨output', s'', u'', hcopy⟩ := exists_of_isSome hcopied
  obtain ⟨hexact, hadded⟩ :=
    manifest_exact FileTree.keeps_careful {} false (s := cartSession) rfl cartTree
  obtain ⟨manifest, hcart, -, -, hlists⟩ := hexact isProper_cartTree output s' u' hsave
  obtain ⟨file, bytes, assets, -, hfound, hcart', -, hstored, -⟩ :=
    hadded .data "t" "x" output' s'' u'' hcopy
  have hfind : cartTree.find (Path.join cartSession.directory "t") =
      .ok (["t"], .file "ho".toUTF8) := by
    rfl
  cases hfound _ hfind
  refine ⟨FileTree.keeps_careful, isProper_cartTree, ⟨output, s', u', manifest, hsave, hcart, hlists⟩,
    output', s'', u'', _, hcopy, hcart', ?_⟩
  exact hstored.eq_singleton

def manifestTree : FileTree where
  nodes := [(["c"], .directory), (["c", "cart.json"], .file "{}".toUTF8)]

/-- A COPY of the file of the manifest leaves this file with other bytes. -/
theorem source_not_kept_manifest :
    FileTree.careful.Keeps id ∧ manifestTree.read "./c/cart.json" = .ok "{}".toUTF8 ∧
    ∃ output s' u',
      (cartSession.perform {} false FileTree.careful (.copy .data "c/cart.json" "x")).run manifestTree =
        ((.ok output, s'), u') ∧
      Path.join cartSession.directory "c/cart.json" = "./c/cart.json" ∧
      u'.read "./c/cart.json" ≠ .ok "{}".toUTF8 := by
  have hcopied : ((cartSession.perform {} false FileTree.careful (.copy .data "c/cart.json" "x")).run
      manifestTree).1.1.toOption.isSome := by
    decide +kernel
  have hsize : (((cartSession.perform {} false FileTree.careful
      (.copy .data "c/cart.json" "x")).run manifestTree).2.read "./c/cart.json").toOption.map
        ByteArray.size ≠ some 2 := by
    decide +kernel
  obtain ⟨output, s', u', hcopy⟩ := exists_of_isSome hcopied
  refine ⟨FileTree.keeps_careful, rfl, output, s', u', hcopy, by decide, fun hkept => hsize ?_⟩
  rw [hcopy, hkept]
  rfl

end LineBasic

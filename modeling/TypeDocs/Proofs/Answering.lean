import TypeDocs.CommandLine
import TypeDocs.Proofs.Roots
import TypeDocs.Proofs.Spelling

namespace TypeDocs

open Session Documenting

theorem join_inj {folderPath a b : String} (h : join folderPath a = join folderPath b) : a = b := by
  unfold join at h
  split at h
  · exact (String.append_right_inj _).mp h
  · exact (String.append_right_inj _).mp h

namespace Folder

theorem fileName_inj {m n : Nat} (h : fileName m = fileName n) : m = n :=
  Spelling.digits_inj (congrArg String.toList ((String.append_left_inj _).mp h))

/-- Files of different numbers lie at different paths. -/
theorem file_inj {f : Folder} {m n : Nat} (h : f.file m = f.file n) : m = n :=
  fileName_inj (join_inj h)

/--
The documents have been written to the files of the next numbers, and nothing else has happened to
the host.
-/
structure Holds (f : Folder) (ds : List Document) (before after : Host) : Prop where
  here : ∀ n d, ds[n]? = some d →
    after.files.get? (f.file (f.next + n)) = some d.text.toUTF8
  elsewhere : ∀ path, (∀ n < ds.length, path ≠ f.file (f.next + n)) →
    after.files.get? path = before.files.get? path
  folders : after.folders = before.folders
  output : after.output = before.output

variable {f : Folder} {d : Document} {ds : List Document} {before host after : Host}

theorem Holds.nil : f.Holds [] host host :=
  ⟨by simp, fun _ _ => rfl, rfl, rfl⟩

/-- Documents that come later have later numbers, so the first one is not written over. -/
theorem Holds.cons (h : Holds { f with next := f.next + 1 } ds
    (before.writeFile (f.file f.next) d.text) after) : f.Holds (d :: ds) before after := by
  have hfile (n : Nat) : Folder.file { f with next := f.next + 1 } n = f.file n := rfl
  have hfirst : after.files.get? (f.file f.next) = some d.text.toUTF8 := by
    rw [h.elsewhere (f.file f.next) fun n _ heq => ?_, Host.writeFile, Index.get?_insert,
      if_pos rfl]
    have hnext : f.next = f.next + 1 + n := file_inj (heq.trans (hfile _))
    omega
  refine ⟨fun n e he => ?_, fun path hpath => ?_, h.folders, h.output⟩
  · cases n with
    | zero =>
      obtain rfl : d = e := by simpa using he
      exact hfirst
    | succ n =>
      have hlater := h.here n e (by simpa using he)
      rwa [hfile, Nat.add_right_comm, Nat.add_assoc] at hlater
  · have hne : path ≠ f.file f.next := hpath 0 (by simp)
    rw [h.elsewhere path fun n hn heq => ?_, Host.writeFile, Index.get?_insert, if_neg hne]
    refine hpath (n + 1) (by simpa using hn) ?_
    rwa [hfile, Nat.add_right_comm, Nat.add_assoc] at heq

/-- Each document is written under the number that the folder has come to. -/
theorem write_foldlM (f : Folder) (ds : List Document) (host : Host) : ∃ after,
    (ds.foldlM write f).run host = ({ f with next := f.next + ds.length }, after) ∧
      f.Holds ds host after := by
  induction ds generalizing f host with
  | nil => exact ⟨host, rfl, .nil⟩
  | cons d ds ih =>
    obtain ⟨after, hrun, hholds⟩ :=
      ih { f with next := f.next + 1 } (host.writeFile (f.file f.next) d.text)
    refine ⟨after, ?_, .cons hholds⟩
    rw [List.foldlM_cons, StateT.run_bind, List.length_cons, Nat.add_comm ds.length 1,
      ← Nat.add_assoc]
    exact hrun

theorem writeTo_holds (s : Session) (f : Folder) (host : Host) : ∃ after,
    (s.writeTo f).run host =
      ((s.documents.size, { f with next := f.next + s.documents.size }), after) ∧
      f.Holds s.documents.toList host after := by
  obtain ⟨after, hrun, hholds⟩ := write_foldlM f s.documents.toList host
  refine ⟨after, ?_, hholds⟩
  rw [Session.writeTo, StateT.run_bind, hrun, Array.length_toList]
  rfl

end Folder

namespace CommandLine

variable {host : Host} {files : String → Option ByteArray} {arguments keys : List String}
  {c : Catalog}

/-- The types that keys stand for, or without keys those that discovery would document. -/
def rootsOf (c : Catalog) (keys : List String) : List TypeId :=
  if keys = [] then c.ids.filter c.isDiscoverable else keys.filterMap c.find?

theorem isDefaultRoot_eq (hc : c.IsClosed) {id : TypeId} (hid : id ∈ c.ids) :
    isDefaultRoot c id = .ok (c.isDiscoverable id) := by
  obtain ⟨s, hs, -⟩ := hc.shape_yields hid
  obtain ⟨info, hi⟩ := Catalog.mem_ids_iff.mp hid
  rw [isDefaultRoot, Catalog.lookup_eq_ok.mpr hi, Catalog.isDiscoverable, hs, hi]
  cases h : info.isByReference <;> simp [h]

def rootOf (c : Catalog) (key : String) : Except Failure TypeId :=
  match c.find? key with
  | some id => .ok id
  | none => .error (.unknownRoot key)

theorem mapM_rootOf_known (hkeys : ∀ key ∈ keys, (c.find? key).isSome) :
    keys.mapM (rootOf c) = .ok (keys.filterMap c.find?) := by
  induction keys with
  | nil => rfl
  | cons key keys ih =>
    rw [List.forall_mem_cons] at hkeys
    obtain ⟨id, hid⟩ := Option.isSome_iff_exists.mp hkeys.1
    rw [List.mapM_cons, ih hkeys.2, List.filterMap_cons_some hid, rootOf, hid]
    rfl

theorem mapM_rootOf_unknown {key : String}
    (hkey : keys.find? (fun k => (c.find? k).isNone) = some key) :
    keys.mapM (rootOf c) = .error (.unknownRoot key) := by
  induction keys with
  | nil => simp at hkey
  | cons k keys ih =>
    rw [List.mapM_cons, rootOf]
    cases hk : c.find? k with
    | none =>
      obtain rfl : k = key := by simpa [hk] using hkey
      rfl
    | some id =>
      rw [List.find?_cons_of_neg (by simp [hk])] at hkey
      rw [ih hkey]
      rfl

theorem selectRoots_known (hc : c.IsClosed) (hkeys : ∀ key ∈ keys, (c.find? key).isSome) :
    selectRoots c keys = .ok (rootsOf c keys) := by
  cases keys with
  | nil =>
    have hroots : defaultRoots c = .ok (c.ids.filter c.isDiscoverable) :=
      filterM_ok fun t ht => isDefaultRoot_eq hc ht
    rw [selectRoots, hroots]
    rfl
  | cons key keys => exact mapM_rootOf_known hkeys

theorem selectRoots_unknown {key : String}
    (hkey : keys.find? (fun k => (c.find? k).isNone) = some key) :
    selectRoots c keys = .error (.unknownRoot key) := by
  cases keys with
  | nil => simp at hkey
  | cons k keys => exact mapM_rootOf_unknown hkey

theorem mem_ids_of_rootsOf {id : TypeId} (h : id ∈ rootsOf c keys) : id ∈ c.ids := by
  unfold rootsOf at h
  split at h
  · exact (List.mem_filter.mp h).1
  · obtain ⟨key, -, hkey⟩ := List.mem_filterMap.mp h
    exact Catalog.mem_ids_of_find hkey

/-- The text that is documented, the folder that is written and the keys of the roots. -/
inductive Commissions (files : String → Option ByteArray) :
    List String → String → String → List String → Prop where
  | sample : Commissions files [] sampleCatalog sampleFolder []
  | document {catalogPath folderPath text : String} {keys : List String}
      (h : textOfFile (files catalogPath) = .ok text) :
      Commissions files (catalogPath :: folderPath :: keys) text folderPath keys

/-- The reasons not to write anything. -/
inductive Refuses (files : String → Option ByteArray) : List String → Failure → Prop where
  | usage {catalogPath : String} : Refuses files [catalogPath] .usage
  | reading {catalogPath folderPath : String} {keys : List String} {fault : FileFault}
      (h : textOfFile (files catalogPath) = .error fault) :
      Refuses files (catalogPath :: folderPath :: keys) (.reading catalogPath)
  | parsing {arguments keys : List String} {text folderPath : String} {error : ReadError}
      (h : Commissions files arguments text folderPath keys)
      (hparse : Catalog.parse text = .error error) : Refuses files arguments .parsing
  | validating {arguments keys : List String} {text folderPath : String} {c : Catalog}
      {error : ValidationError} (h : Commissions files arguments text folderPath keys)
      (hparse : Catalog.parse text = .ok c) (hvalid : c.validate = .error error) :
      Refuses files arguments .validating
  | unknownRoot {arguments keys : List String} {text folderPath key : String} {c : Catalog}
      (h : Commissions files arguments text folderPath keys)
      (hparse : Catalog.parse text = .ok c) (hvalid : c.validate = .ok ())
      (hkey : keys.find? (fun k => (c.find? k).isNone) = some key) :
      Refuses files arguments (.unknownRoot key)

section Stages

variable {α β : Type} {x : Program α} {f : α → Program β} {host' : Host}

/-- A stage that comes to its end hands on what it made and the host as it left it. -/
theorem run_bind_ok {a : α} (h : x.run.run host = (.ok a, host')) :
    (x >>= f).run.run host = (f a).run.run host' := by
  rw [ExceptT.run_bind, StateT.run_bind, h]
  rfl

/-- No stage comes after one that fails. -/
theorem run_bind_error {failure : Failure} (h : x.run.run host = (.error failure, host')) :
    (x >>= f).run.run host = (.error failure, host') := by
  rw [ExceptT.run_bind, StateT.run_bind, h]
  rfl

/-- What is only worked out leaves the host alone. -/
theorem run_ofExcept (e : Except Failure α) :
    (ofExcept e : Program α).run.run host = (e, host) := by
  cases e <;> rfl

theorem run_liftM {x : StateM Host α} {a : α} (h : x.run host = (a, host')) :
    (liftM x : Program α).run.run host = (.ok a, host') := by
  have hlift : (liftM x : Program α).run.run host = (.ok (x.run host).1, (x.run host).2) := rfl
  rw [hlift, h]

theorem run_readText (path : String) : (readText path).run.run host =
    ((textOfFile (host.files.get? path)).mapError fun _ => Failure.reading path, host) := by
  rw [readText]
  exact (run_bind_ok rfl).trans (run_ofExcept _)

theorem run_commission {text folderPath : String}
    (h : Commissions host.files.get? arguments text folderPath keys) :
    (commission arguments).run.run host = (.ok ⟨text, folderPath, keys⟩, host) := by
  cases h with
  | sample => rfl
  | document h =>
    rw [commission, run_bind_ok ((run_readText _).trans (by rw [mapError_eq_ok.mpr h]))]
    rfl

end Stages

/-- A program that is refused has not touched its host. -/
theorem main_refused {failure : Failure} (h : Refuses host.files.get? arguments failure) :
    (main arguments).run.run host = (.error failure, host) := by
  cases h with
  | usage => rfl
  | reading h =>
    rw [main, commission]
    exact run_bind_error (run_bind_error ((run_readText _).trans (by rw [h]; rfl)))
  | parsing h hparse =>
    rw [main, run_bind_ok (run_commission h)]
    exact run_bind_error ((run_ofExcept _).trans (by rw [hparse]; rfl))
  | validating h hparse hvalid =>
    rw [main, run_bind_ok (run_commission h),
      run_bind_ok ((run_ofExcept _).trans (by rw [mapError_eq_ok.mpr hparse]))]
    exact run_bind_error ((run_ofExcept _).trans (by rw [hvalid]; rfl))
  | unknownRoot h hparse hvalid hkey =>
    rw [main, run_bind_ok (run_commission h),
      run_bind_ok ((run_ofExcept _).trans (by rw [mapError_eq_ok.mpr hparse])),
      run_bind_ok ((run_ofExcept _).trans (by rw [mapError_eq_ok.mpr hvalid]))]
    exact run_bind_error ((run_ofExcept _).trans (by rw [selectRoots_unknown hkey]))

/-- The documents that a session configured for the catalog produces for roots, and their count. -/
theorem exists_documented {text : String} (hparse : Catalog.parse text = .ok c)
    (hvalid : c.validate = .ok ()) (keys : List String) :
    ∃ count s, (generateReachable c (rootsOf c keys)).run c.newSession = .ok (count, s) ∧
      s.documents.size = count := by
  have hc := Catalog.isRegular_of_validate (Catalog.parse_isClosed text c hparse) hvalid
  obtain ⟨⟨count, s⟩, hrun, hext, hcount⟩ := generateReachable_extends hc
    (fun t ht => mem_ids_of_rootsOf ht) (isSound_empty (Settings.forCatalog c))
  obtain ⟨docs, hdocs, htypes⟩ := hext.documents
  have hall : s.documents.toList = docs := hdocs
  refine ⟨count, s, hrun, ?_⟩
  calc s.documents.size = docs.length := by rw [← hall, Array.length_toList]
    _ = (docs.map Document.type).length := by rw [List.length_map]
    _ = count := by rw [htypes, ← hcount]

/-- A program that is not refused makes its folder, fills it and reports. -/
theorem main_documents {text folderPath : String} {count : Nat} {s : Session}
    (h : Commissions host.files.get? arguments text folderPath keys)
    (hparse : Catalog.parse text = .ok c) (hvalid : c.validate = .ok ())
    (hkeys : ∀ key ∈ keys, (c.find? key).isSome)
    (hrun : (generateReachable c (rootsOf c keys)).run c.newSession = .ok (count, s)) :
    ∃ filled, (main arguments).run.run host = (.ok (), filled.print ("Wrote " ++ toString count ++
        " documents to " ++ folderPath ++ " (" ++ toString s.registry.descriptors.size ++
        " descriptors)\n")) ∧
      Folder.Holds { path := folderPath } s.documents.toList (host.makeFolder folderPath)
        filled := by
  have hc := Catalog.parse_isClosed text c hparse
  obtain ⟨filled, hwrite, hholds⟩ :=
    Folder.writeTo_holds s { path := folderPath } (host.makeFolder folderPath)
  refine ⟨filled, ?_, hholds⟩
  rw [main, run_bind_ok (run_commission h),
    run_bind_ok ((run_ofExcept _).trans (by rw [mapError_eq_ok.mpr hparse])),
    run_bind_ok ((run_ofExcept _).trans (by rw [mapError_eq_ok.mpr hvalid])),
    run_bind_ok ((run_ofExcept _).trans (by rw [selectRoots_known hc hkeys])),
    run_bind_ok ((run_ofExcept _).trans (by rw [mapError_eq_ok.mpr hrun]))]
  exact (run_bind_ok (run_liftM rfl)).trans ((run_bind_ok (run_liftM hwrite)).trans rfl)

/-- A run is refused, or else it documents a valid catalog that has all the roots asked for. -/
theorem refuses_or_documents (files : String → Option ByteArray) (arguments : List String) :
    (∃ failure, Refuses files arguments failure) ∨
      ∃ text folderPath keys c, Commissions files arguments text folderPath keys ∧
        Catalog.parse text = .ok c ∧ c.validate = .ok () ∧
        ∀ key ∈ keys, (c.find? key).isSome := by
  have hdocument {text folderPath : String} {keys : List String}
      (h : Commissions files arguments text folderPath keys) :
      (∃ failure, Refuses files arguments failure) ∨
        ∃ c, Catalog.parse text = .ok c ∧ c.validate = .ok () ∧
          ∀ key ∈ keys, (c.find? key).isSome := by
    cases hparse : Catalog.parse text with
    | error e => exact .inl ⟨_, .parsing h hparse⟩
    | ok c =>
      cases hvalid : c.validate with
      | error e => exact .inl ⟨_, .validating h hparse hvalid⟩
      | ok u =>
        cases hkey : keys.find? fun k => (c.find? k).isNone with
        | some key => exact .inl ⟨_, .unknownRoot h hparse hvalid hkey⟩
        | none =>
          refine .inr ⟨c, rfl, hvalid, fun key hmem => ?_⟩
          have hnone := List.find?_eq_none.mp hkey key hmem
          rwa [← Option.not_isNone, Bool.not_eq_true', ← Bool.not_eq_true]
  have hcommission : (∃ failure, Refuses files arguments failure) ∨
      ∃ text folderPath keys, Commissions files arguments text folderPath keys := by
    rcases arguments with _ | ⟨catalogPath, _ | ⟨folderPath, keys⟩⟩
    · exact .inr ⟨_, _, _, .sample⟩
    · exact .inl ⟨_, .usage⟩
    · cases h : textOfFile (files catalogPath) with
      | error fault => exact .inl ⟨_, .reading h⟩
      | ok text => exact .inr ⟨text, folderPath, keys, .document h⟩
  rcases hcommission with hrefused | ⟨text, folderPath, keys, h⟩
  · exact .inl hrefused
  · exact (hdocument h).imp_right fun ⟨c, hc⟩ => ⟨text, folderPath, keys, c, h, hc⟩

/--
A run that is refused says why and leaves its host as it found it. Any other run documents the
catalog that its arguments lead to: the number that it reports is the number of the documents of the
selected roots, the file of each number holds the document of that number, and all other files are
as they were.
-/
theorem run_all_or_nothing (host : Host) (arguments : List String) :
    (∃ failure, Refuses host.files.get? arguments failure ∧
      run host arguments = ⟨1, some ("Error: " ++ failure.message), host⟩) ∨
    ∃ text folderPath keys c count s after,
      let file (n : Nat) : String := join folderPath (toString n ++ ".lua")
      Commissions host.files.get? arguments text folderPath keys ∧
      Catalog.parse text = .ok c ∧ c.validate = .ok () ∧
      (∀ key ∈ keys, (c.find? key).isSome) ∧
      (generateReachable c (rootsOf c keys)).run c.newSession = .ok (count, s) ∧
      s.documents.size = count ∧ run host arguments = ⟨0, none, after⟩ ∧
      after.output = host.output ++ ("Wrote " ++ toString count ++ " documents to " ++ folderPath ++
        " (" ++ toString s.registry.descriptors.size ++ " descriptors)\n") ∧
      folderPath ∈ after.folders ∧ Function.Injective file ∧
      (∀ n (d : Document), s.documents[n]? = some d →
        after.files.get? (file n) = some d.text.toUTF8) ∧
      ∀ path, (∀ n < count, path ≠ file n) → after.files.get? path = host.files.get? path := by
  rcases refuses_or_documents host.files.get? arguments with ⟨failure, h⟩ | hdocuments
  · refine .inl ⟨failure, h, ?_⟩
    rw [run, main_refused h]
  · right
    obtain ⟨text, folderPath, keys, c, h, hparse, hvalid, hkeys⟩ := hdocuments
    obtain ⟨count, s, hrun, rfl⟩ := exists_documented hparse hvalid keys
    obtain ⟨filled, hmain, hholds⟩ := main_documents h hparse hvalid hkeys hrun
    have hfolder : (host.makeFolder folderPath).files = host.files ∧
        (host.makeFolder folderPath).output = host.output ∧
        folderPath ∈ (host.makeFolder folderPath).folders := by
      unfold Host.makeFolder
      split <;> simp_all
    have hfile (n : Nat) : Folder.file { path := folderPath } (0 + n) =
        join folderPath (toString n ++ ".lua") := by
      rw [Nat.zero_add]
      rfl
    refine ⟨text, folderPath, keys, c, s.documents.size, s, _, h, hparse, hvalid, hkeys, hrun, rfl,
      by rw [run, hmain], ?_, ?_, fun m n heq => Folder.fileName_inj (join_inj heq),
      fun n d hd => ?_, fun path hpath => ?_⟩
    · rw [Host.print, hholds.output, hfolder.2.1]
    · exact hholds.folders ▸ hfolder.2.2
    · dsimp only
      rw [← hfile n]
      exact hholds.here n d (by simpa using hd)
    · rw [← hfolder.1]
      refine hholds.elsewhere path fun n hn => ?_
      rw [hfile n]
      exact hpath n (by simpa using hn)

end CommandLine

end TypeDocs

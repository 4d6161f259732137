import NostrSearch.Core.Text
import Mathlib.Data.Char
import Mathlib.Data.List.Lex
import Mathlib.Data.List.Sort

/-!
# The files of the archive

The archive directory is looked at in three ways: the listing goes through it, a download goes to
one name in it, and a replay collects the dumps to be read. All three go by the end of the name. The
listing and the replay find the same files (`published_exact`). A download also follows links, which
neither of them does, and refuses some names that are listed.

The directory does not change meanwhile.
-/

namespace NostrSearch.Server

open NostrSearch.Core

/-- Extensions the archive cursor can read. -/
def DUMP_EXTS : List (List Char) :=
  [".jsonl".toList, ".jsonl.gz".toList, ".jsonl.zst".toList, ".jsonl.zstd".toList,
    ".jsonl.bz2".toList, ".json".toList, ".json.gz".toList, ".json.zst".toList,
    ".json.zstd".toList, ".json.bz2".toList]

/-- `is_archive_dump`. -/
def isArchiveDump (name : List Char) : Bool :=
  DUMP_EXTS.any fun e => e.isSuffixOf (asciiLower name)

inductive FileKind
  | file (bytes : List UInt8)
  | directory
  /-- a link, and the file it leads to, if it leads to one -/
  | link (target : Option (List UInt8))
  | other

/-- What there is, if it is a file. -/
def FileKind.bytes : FileKind → Option (List UInt8)
  | .file bytes => some bytes
  | _ => none

/-- The same with links followed. -/
def FileKind.followed : FileKind → Option (List UInt8)
  | .file bytes => some bytes
  | .link target => target
  | _ => none

structure ArchiveEntry where
  /-- the name, if it is UTF-8 -/
  name : Option (List Char)
  kind : FileKind
  /-- the time of the last change, if there is metadata -/
  modified : Option ℕ
  /-- whether `read_dir` gets to it -/
  reached : Bool
  readable : Bool

structure ArchiveDir where
  /-- whether `read_dir` opens it -/
  opens : Bool
  entries : List ArchiveEntry
  nodup : (entries.filterMap ArchiveEntry.name).Nodup

structure ArchiveFileInfo where
  name : List Char
  size : ℕ
  timestamp : ℕ

structure ArchiveStats where
  files : ℕ
  totalSize : ℕ
  totalEvents : Option ℕ

/-- What a listing has of an entry that it gets to. -/
def ArchiveEntry.info (e : ArchiveEntry) (timestamp : ℕ) : Option ArchiveFileInfo :=
  e.kind.bytes.bind fun bytes =>
    (e.name.filter isArchiveDump).map fun name => { name, size := bytes.length, timestamp }

/-- One turn of the loop of `list`, which fails if the entry cannot be read. -/
def ArchiveEntry.listed (e : ArchiveEntry) : Option (Option ArchiveFileInfo) :=
  if e.reached then e.modified.map e.info else none

namespace ArchiveDir

variable (dir : ArchiveDir)

/-- `list`. -/
def list : Option (List ArchiveFileInfo) :=
  if dir.opens then (dir.entries.mapM ArchiveEntry.listed).map List.reduceOption else none

/-- `files_json`: the newest in front. -/
def filesJson : Option (List ArchiveFileInfo) :=
  dir.list.map fun files => files.mergeSort fun a b => decide (b.timestamp ≤ a.timestamp)

/-- `stats_json`. -/
def statsJson (eventCount : Option ℕ) : Option ArchiveStats :=
  dir.list.map fun files =>
    { files := files.length, totalSize := (files.map ArchiveFileInfo.size).sum
      totalEvents := eventCount }

/-- `archive_files`: what a replay reads, an entry that cannot be read apart. -/
def archiveFiles : List (List Char) :=
  if dir.opens then
    (dir.entries.filterMap fun e =>
      if e.reached && e.kind.bytes.isSome then e.name.filter isArchiveDump
      else none).mergeSort fun a b => decide (a ≤ b)
  else []

/-- `serve_file`: the length that is announced, and the body. -/
def serveFile (file : List Char) : Except (ℕ × String) (ℕ × List UInt8) :=
  if containsText file "..".toList || '/' ∈ file || '\\' ∈ file || !isArchiveDump file then
    .error (400, "invalid file name")
  else
    match dir.entries.find? fun e => decide (e.name = some file) with
    | none => .error (404, "no such archive file")
    | some e =>
      match e.modified.bind fun _ => e.kind.followed with
      | none => .error (404, "no such archive file")
      | some bytes =>
        if e.readable then .ok (bytes.length, bytes) else .error (404, "cannot open file")

end ArchiveDir

/-! ## Names -/

/-- The name of a dump has `.json` in it, in capitals or not. -/
theorem json_of_isArchiveDump {name : List Char} (h : isArchiveDump name = true) :
    ".json".toList <:+: asciiLower name := by
  have hexts : ∀ e ∈ DUMP_EXTS, ".json".toList <:+: e := by decide
  rw [isArchiveDump, List.any_eq_true] at h
  obtain ⟨e, he, hsuffix⟩ := h
  rw [List.isSuffixOf_iff_suffix] at hsuffix
  exact (hexts e he).trans hsuffix.isInfix

/-- A name that is served, if there is such a file. -/
def Servable (file : List Char) : Prop :=
  ¬ "..".toList <:+: file ∧ '/' ∉ file ∧ '\\' ∉ file ∧ isArchiveDump file = true

theorem servable_iff {file : List Char} :
    (containsText file "..".toList || '/' ∈ file || '\\' ∈ file || !isArchiveDump file) = true ↔
      ¬ Servable file := by
  rw [Servable, containsText]
  simp only [Bool.or_eq_true, decide_eq_true_eq, Bool.not_eq_true', not_and_or, not_not,
    Bool.not_eq_true, or_assoc]

namespace ArchiveDir

variable {dir : ArchiveDir} {infos : List ArchiveFileInfo} {file : List Char}

theorem eq_of_name {e e' : ArchiveEntry} (he : e ∈ dir.entries) (he' : e' ∈ dir.entries)
    (h : e.name = some file) (h' : e'.name = some file) : e = e' := by
  have hnodup := dir.nodup
  generalize dir.entries = es at he he' hnodup
  induction es with
  | nil => exact absurd he List.not_mem_nil
  | cons a es ih =>
    have hout : ∀ b ∈ es, a.name = some file → b.name = some file → False := by
      intro b hb ha hbn
      rw [List.filterMap_cons, ha] at hnodup
      exact (List.nodup_cons.mp hnodup).1 (List.mem_filterMap.mpr ⟨b, hb, hbn⟩)
    rcases List.mem_cons.mp he with heq | hes
    · rcases List.mem_cons.mp he' with heq' | hes'
      · rw [heq, heq']
      · exact (hout e' hes' (by rwa [← heq]) h').elim
    · rcases List.mem_cons.mp he' with heq' | hes'
      · exact (hout e hes (by rwa [← heq']) h).elim
      · exact ih hes hes' (hnodup.sublist ((List.sublist_cons_self a es).filterMap _))

theorem find_entry {e : ArchiveEntry} (he : e ∈ dir.entries) (h : e.name = some file) :
    (dir.entries.find? fun e => decide (e.name = some file)) = some e := by
  cases hfind : dir.entries.find? fun e => decide (e.name = some file) with
  | none => exact absurd (decide_eq_true h) (List.find?_eq_none.mp hfind e he)
  | some e' =>
    have hname : e'.name = some file := of_decide_eq_true
      (List.find?_some (p := fun e : ArchiveEntry => decide (e.name = some file)) hfind)
    rw [eq_of_name (List.mem_of_find?_eq_some hfind) he hname h]

/-- What is served is what one entry of the directory has, or leads to. -/
theorem serveFile_eq_ok {len : ℕ} {body : List UInt8} :
    dir.serveFile file = .ok (len, body) ↔ Servable file ∧ len = body.length ∧
      ∃ e ∈ dir.entries, e.name = some file ∧ e.modified.isSome ∧ e.kind.followed = some body ∧
        e.readable = true := by
  unfold serveFile
  by_cases hname : Servable file
  · rw [if_neg (by rw [servable_iff]; exact not_not.mpr hname), and_iff_right hname]
    constructor
    · intro h
      split at h
      case h_1 => cases h
      case h_2 e hfind =>
        split at h
        case h_1 => cases h
        case h_2 bytes hbytes =>
          split at h
          case isFalse => cases h
          case isTrue hreadable =>
            cases h
            obtain ⟨t, ht, hkind⟩ := Option.bind_eq_some_iff.mp hbytes
            have hname : e.name = some file := of_decide_eq_true
              (List.find?_some (p := fun e : ArchiveEntry => decide (e.name = some file)) hfind)
            exact ⟨rfl, e, List.mem_of_find?_eq_some hfind, hname, by rw [ht]; rfl, hkind,
              hreadable⟩
    · rintro ⟨rfl, e, he, hname, hmodified, hkind, hreadable⟩
      obtain ⟨t, ht⟩ := Option.isSome_iff_exists.mp hmodified
      simp only [find_entry he hname, ht, Option.bind_some, hkind, hreadable, if_true]
  · rw [if_pos (servable_iff.mpr hname)]
    refine iff_of_false ?_ fun h => hname h.1
    rintro ⟨⟩

/-- The listing goes through to the end, or fails. -/
theorem mapM_listed (es : List ArchiveEntry) :
    es.mapM ArchiveEntry.listed =
      if es.all fun e => e.reached && e.modified.isSome then
        some (es.map fun e => e.info (e.modified.getD 0))
      else none := by
  induction es with
  | nil => rfl
  | cons e es ih =>
    rw [List.mapM_cons, ih, List.all_cons, ArchiveEntry.listed]
    cases e.reached with
    | false => rfl
    | true =>
      cases ht : e.modified with
      | none => rfl
      | some t =>
        cases es.all fun e => e.reached && e.modified.isSome with
        | false => rfl
        | true =>
          show some (e.info t :: _) = some (e.info (e.modified.getD 0) :: _)
          rw [ht, Option.getD_some]

theorem list_eq_some : dir.list = some infos ↔
    dir.opens = true ∧ (∀ e ∈ dir.entries, e.reached = true ∧ e.modified.isSome = true) ∧
      infos = dir.entries.filterMap fun e => e.info (e.modified.getD 0) := by
  rw [list, Option.ite_none_right_eq_some, mapM_listed, Option.map_eq_some_iff]
  refine and_congr_right fun _ => ?_
  have hall : (dir.entries.all fun e => e.reached && e.modified.isSome) = true ↔
      ∀ e ∈ dir.entries, e.reached = true ∧ e.modified.isSome = true := by
    rw [List.all_eq_true]
    exact forall₂_congr fun e _ => Bool.and_eq_true _ _ ▸ Iff.rfl
  constructor
  · rintro ⟨all, h, rfl⟩
    rw [Option.ite_none_right_eq_some, Option.some.injEq, hall] at h
    refine ⟨h.1, ?_⟩
    rw [← h.2]
    unfold List.reduceOption
    rw [List.filterMap_map]
    rfl
  · rintro ⟨h, rfl⟩
    refine ⟨_, by rw [if_pos (hall.mpr h)], ?_⟩
    unfold List.reduceOption
    rw [List.filterMap_map]
    rfl

/-- A dump that is a file of the directory. -/
def HasDump (dir : ArchiveDir) (file : List Char) (bytes : List UInt8) : Prop :=
  isArchiveDump file = true ∧ ∃ e ∈ dir.entries, e.name = some file ∧ e.kind.bytes = some bytes

theorem info_eq_some {e : ArchiveEntry} {t : ℕ} {info : ArchiveFileInfo} :
    e.info t = some info ↔ isArchiveDump info.name = true ∧ e.name = some info.name ∧
      (∃ bytes, e.kind.bytes = some bytes ∧ info.size = bytes.length) ∧ info.timestamp = t := by
  rw [ArchiveEntry.info, Option.bind_eq_some_iff]
  constructor
  · rintro ⟨bytes, hbytes, h⟩
    obtain ⟨name, hname, rfl⟩ := Option.map_eq_some_iff.mp h
    rw [Option.filter_eq_some_iff] at hname
    exact ⟨hname.2, hname.1, ⟨bytes, hbytes, rfl⟩, rfl⟩
  · rintro ⟨hdump, hname, ⟨bytes, hbytes, hsize⟩, ht⟩
    refine ⟨bytes, hbytes, Option.map_eq_some_iff.mpr ⟨info.name, ?_, ?_⟩⟩
    · rw [hname, Option.filter_some, if_pos hdump]
    · rw [← hsize, ← ht]

section listed

variable (h : dir.list = some infos)

include h

theorem mem_list {n : ℕ} : (∃ info ∈ infos, info.name = file ∧ info.size = n) ↔
    ∃ bytes, dir.HasDump file bytes ∧ n = bytes.length := by
  obtain ⟨-, -, rfl⟩ := list_eq_some.mp h
  constructor
  · rintro ⟨info, hinfo, rfl, rfl⟩
    obtain ⟨e, he, heq⟩ := List.mem_filterMap.mp hinfo
    obtain ⟨hdump, hname, ⟨bytes, hbytes, hsize⟩, -⟩ := info_eq_some.mp heq
    exact ⟨bytes, ⟨hdump, e, he, hname, hbytes⟩, hsize⟩
  · rintro ⟨bytes, ⟨hdump, e, he, hname, hbytes⟩, rfl⟩
    refine ⟨{ name := file, size := bytes.length, timestamp := e.modified.getD 0 },
      List.mem_filterMap.mpr ⟨e, he, ?_⟩, rfl, rfl⟩
    exact info_eq_some.mpr ⟨hdump, hname, ⟨bytes, hbytes, rfl⟩, rfl⟩

/-- The listing and the replay go through the same entries, and keep the same of them. -/
theorem names_list : infos.map ArchiveFileInfo.name =
    dir.entries.filterMap fun e =>
      if e.reached && e.kind.bytes.isSome then e.name.filter isArchiveDump else none := by
  obtain ⟨-, hall, rfl⟩ := list_eq_some.mp h
  rw [List.map_filterMap]
  refine List.filterMap_congr fun e he => ?_
  rw [(hall e he).1, Bool.true_and, ArchiveEntry.info]
  cases e.kind.bytes with
  | none => rfl
  | some bytes =>
    rw [Option.bind_some, Option.map_map, Option.isSome_some, if_pos rfl]
    exact Option.map_id'

theorem nodup_names : (infos.map ArchiveFileInfo.name).Nodup := by
  rw [names_list h]
  have hnodup := List.pairwise_filterMap.mp dir.nodup
  refine List.pairwise_filterMap.mpr (hnodup.imp fun {a b} hab n hn m hm => hab n ?_ m ?_)
  · rw [Option.ite_none_right_eq_some, Option.filter_eq_some_iff] at hn
    exact hn.2.1
  · rw [Option.ite_none_right_eq_some, Option.filter_eq_some_iff] at hm
    exact hm.2.1

theorem perm_archiveFiles : dir.archiveFiles.Perm (infos.map ArchiveFileInfo.name) := by
  rw [names_list h, archiveFiles, if_pos (list_eq_some.mp h).1]
  exact List.mergeSort_perm _ _

end listed

theorem sorted_archiveFiles (dir : ArchiveDir) : dir.archiveFiles.Pairwise (· ≤ ·) := by
  unfold archiveFiles
  split
  case isFalse => exact List.Pairwise.nil
  case isTrue =>
    have hsorted := @List.pairwise_mergeSort _ (fun a b : List Char => decide (a ≤ b))
      (fun a b c hab hbc => decide_eq_true ((of_decide_eq_true hab).trans (of_decide_eq_true hbc)))
      (fun a b => by
        rw [Bool.or_eq_true, decide_eq_true_eq, decide_eq_true_eq]
        exact le_total a b)
      (dir.entries.filterMap fun e =>
        if e.reached && e.kind.bytes.isSome then e.name.filter isArchiveDump else none)
    exact hsorted.imp fun h => of_decide_eq_true h

/-- **What is published.** The listing has the dumps of the directory, each once and with its size,
and they are the ones a replay reads; nothing that has no `.json` in its name is listed, read or
served. A file that is listed is served, with its size announced, if it can be read and has neither
two dots nor a backslash in its name; and what is served besides is what a link leads to. -/
theorem published_exact (dir : ArchiveDir) :
    (∀ infos, dir.list = some infos →
      (infos.map ArchiveFileInfo.name).Nodup ∧
      (∀ file n, (∃ info ∈ infos, info.name = file ∧ info.size = n) ↔
        ∃ bytes, dir.HasDump file bytes ∧ n = bytes.length) ∧
      dir.archiveFiles.Perm (infos.map ArchiveFileInfo.name) ∧
      (∀ eventCount, dir.statsJson eventCount = some
        { files := dir.archiveFiles.length, totalSize := (infos.map ArchiveFileInfo.size).sum
          totalEvents := eventCount }) ∧
      ∃ files, dir.filesJson = some files ∧ files.Perm infos ∧
        files.Pairwise fun a b => b.timestamp ≤ a.timestamp) ∧
    (∀ file len body, dir.serveFile file = .ok (len, body) → Servable file ∧ len = body.length ∧
      (dir.HasDump file body ∨
        ∃ e ∈ dir.entries, e.name = some file ∧ e.kind = .link (some body))) ∧
    (∀ file bytes, dir.HasDump file bytes → (∀ e ∈ dir.entries, e.name = some file →
        e.modified.isSome = true ∧ e.readable = true) →
      (dir.serveFile file = .ok (bytes.length, bytes) ↔ Servable file)) ∧
    ∀ file, ¬ ".json".toList <:+: asciiLower file →
      dir.serveFile file = .error (400, "invalid file name") ∧ file ∉ dir.archiveFiles ∧
      ∀ infos, dir.list = some infos → file ∉ infos.map ArchiveFileInfo.name := by
  refine ⟨fun infos h => ⟨nodup_names h, fun file n => mem_list h, perm_archiveFiles h,
    fun eventCount => ?_, ?_⟩, fun file len body h => ?_, fun file bytes hdump hread => ?_,
    fun file hjson => ?_⟩
  · rw [statsJson, h, Option.map_some, (perm_archiveFiles h).length_eq, List.length_map]
  · have hsorted := @List.pairwise_mergeSort _
      (fun a b : ArchiveFileInfo => decide (b.timestamp ≤ a.timestamp))
      (fun a b c hab hbc => decide_eq_true ((of_decide_eq_true hbc).trans (of_decide_eq_true hab)))
      (fun a b => by
        rw [Bool.or_eq_true, decide_eq_true_eq, decide_eq_true_eq]
        exact le_total b.timestamp a.timestamp) infos
    exact ⟨_, by rw [filesJson, h, Option.map_some], List.mergeSort_perm _ _,
      hsorted.imp fun hab => of_decide_eq_true hab⟩
  · obtain ⟨hname, hlen, e, he, hfile, -, hkind, -⟩ := serveFile_eq_ok.mp h
    refine ⟨hname, hlen, ?_⟩
    cases heq : e.kind with
    | file b =>
      rw [heq] at hkind
      exact Or.inl ⟨hname.2.2.2, e, he, hfile, by rw [heq]; exact hkind⟩
    | link target =>
      rw [heq] at hkind
      refine Or.inr ⟨e, he, hfile, ?_⟩
      rw [heq, show target = some body from hkind]
    | directory =>
      rw [heq] at hkind
      cases hkind
    | other =>
      rw [heq] at hkind
      cases hkind
  · refine ⟨fun h => (serveFile_eq_ok.mp h).1, fun hname => serveFile_eq_ok.mpr ⟨hname, rfl, ?_⟩⟩
    obtain ⟨-, e, he, hfile, hbytes⟩ := hdump
    obtain ⟨hmodified, hreadable⟩ := hread e he hfile
    refine ⟨e, he, hfile, hmodified, ?_, hreadable⟩
    cases heq : e.kind with
    | file b =>
      rw [heq] at hbytes
      exact hbytes
    | link target =>
      rw [heq] at hbytes
      cases hbytes
    | directory =>
      rw [heq] at hbytes
      cases hbytes
    | other =>
      rw [heq] at hbytes
      cases hbytes
  · have hdump : isArchiveDump file ≠ true := fun h => hjson (json_of_isArchiveDump h)
    refine ⟨?_, fun hmem => ?_, fun infos h hmem => ?_⟩
    · rw [serveFile, if_pos (servable_iff.mpr fun h => hdump h.2.2.2)]
    · unfold archiveFiles at hmem
      split at hmem
      case isFalse => exact List.not_mem_nil hmem
      case isTrue =>
        rw [List.mem_mergeSort, List.mem_filterMap] at hmem
        obtain ⟨e, -, h⟩ := hmem
        rw [Option.ite_none_right_eq_some, Option.filter_eq_some_iff] at h
        exact hdump h.2.2
    · obtain ⟨info, hinfo, heq⟩ := List.mem_map.mp hmem
      obtain ⟨bytes, hhas, -⟩ := (mem_list h).mp ⟨info, hinfo, heq, rfl⟩
      exact hdump hhas.1

end ArchiveDir

end NostrSearch.Server

import LibTorrent.Data.Path
import LibTorrent.Lib.Outcome
import LibTorrent.Object.Basic
import Mathlib.Data.List.DropRight

namespace LibTorrent

open Lib.Decimal Lib.Lexicographic Lib.Outcome

inductive TorrentFault
  | internalError (message : String)
  | inputError (message : String)
  | bencodeError (message : String)
  deriving DecidableEq

namespace Object

def typeToCStr : Object → String
  | none _ => "none"
  | rawBencode _ _ => "raw_bencode"
  | rawString _ _ => "raw_string"
  | rawList _ _ => "raw_list"
  | rawMap _ _ => "raw_map"
  | value _ _ => "value"
  | string _ _ => "string"
  | list _ _ => "list"
  | map _ _ => "map"
  | dictKey _ _ _ => "dict_key"

def wrongType (expected : String) (o : Object) : TorrentFault :=
  .bencodeError ("Wrong object type: expected: " ++ expected ++ " actual: " ++ o.typeToCStr)

def asValue : Object → Except TorrentFault Int64
  | value _ v => .ok v
  | o => .error (o.wrongType "value")

def asString : Object → Except TorrentFault Bytes
  | string _ s => .ok s
  | o => .error (o.wrongType "string")

def asList : Object → Except TorrentFault (List Object)
  | list _ l => .ok l
  | o => .error (o.wrongType "list")

def asMap : Object → Except TorrentFault (List (Bytes × Object))
  | map _ m => .ok m
  | o => .error (o.wrongType "map")

def isValue : Object → Bool
  | value _ _ => true
  | _ => false

def isString : Object → Bool
  | string _ _ => true
  | _ => false

def isList : Object → Bool
  | list _ _ => true
  | _ => false

def entry (k : String) (m : List (Bytes × Object)) : Option Object := (m.find? fun p ↦ p.1 = ascii k).map Prod.snd

/-- `has_key_value`, `has_key_string` and `has_key_list`: there is an entry, and it has the type. -/
def hasKeyOf (isType : Object → Bool) (k : String) (o : Object) : Except TorrentFault Bool := do
  let m ← o.asMap
  return (entry k m).any isType

def hasKey : String → Object → Except TorrentFault Bool := hasKeyOf fun _ ↦ true

def hasKeyValue : String → Object → Except TorrentFault Bool := hasKeyOf isValue

def hasKeyString : String → Object → Except TorrentFault Bool := hasKeyOf isString

def hasKeyList : String → Object → Except TorrentFault Bool := hasKeyOf isList

def getKey (k : String) (o : Object) : Except TorrentFault Object := do
  match entry k (← o.asMap) with
  | some v => .ok v
  | .none => .error (.bencodeError ("Object operator [" ++ k ++ "] could not find element"))

def getKeyValue (k : String) (o : Object) : Except TorrentFault Int64 := do (← o.getKey k).asValue

def getKeyString (k : String) (o : Object) : Except TorrentFault Bytes := do (← o.getKey k).asString

def getKeyList (k : String) (o : Object) : Except TorrentFault (List Object) := do (← o.getKey k).asList

end Object

/-- An entry of `FileList::split_type`, and the file that is made of it. -/
structure SplitFile where
  size : ℕ
  path : Path
  isPadding : Bool
  deriving DecidableEq

/-- `torrent::FileList` while it is filled: the bitfield has a size and no memory yet. -/
structure Content where
  isMultiFile : Bool
  chunkSize : ℕ
  torrentSize : ℕ
  sizeChunks : ℕ
  rootDir : Bytes
  files : List SplitFile
  deriving DecidableEq

namespace Content

def initializeFrom (torrentSize chunkSize : ℕ) (c : Content) : Except TorrentFault Content :=
  if chunkSize = 0 then .error (.internalError "FileList::initialize() chunk_size() == 0.")
  else
    .ok { c with
      chunkSize := chunkSize
      torrentSize := torrentSize
      rootDir := ascii "."
      sizeChunks := (torrentSize + chunkSize - 1) / chunkSize % 2 ^ 32
      files := c.files ++ [⟨torrentSize, [], false⟩] }

def split (first : List SplitFile) (c : Content) : Except TorrentFault Content :=
  match c.files with
  | [] => .error (.internalError "FileList::split(...) invalid arguments.")
  | oldFile :: rest =>
    if first = [] then .error (.internalError "FileList::split(...) invalid arguments.")
    else if (first.map SplitFile.size).sum ≠ oldFile.size then
      .error (.internalError "FileList::split(...) split size does not match the old size.")
    else .ok { c with files := first ++ rest }

/-- The number of elements that two paths begin with in common, as `File::set_match_depth` counts it. -/
def matchDepth : Path → Path → ℕ
  | l :: left, r :: right => if l = r then matchDepth left right + 1 else 0
  | _, _ => 0

/-- `FileList::update_paths` for all files. The depths of the files that follow each other agree as they are set
together. -/
def updatePaths (c : Content) : Except TorrentFault Unit :=
  if adjacentFind (fun f g ↦ decide (f.path.length ≤ matchDepth f.path g.path)) c.files then
    .error (.internalError "verify_file_list() 3.")
  else .ok ()

def setRootDir (path : Bytes) (c : Content) : Content :=
  let path := path.rdropWhile (· == ch '/')
  { c with rootDir := if path = [] then ascii "." else path }

def setFrontPath (path : Path) (c : Content) : Content :=
  { c with files := c.files.modifyHead fun f ↦ { f with path := path } }

end Content

structure Construction where
  name : Bytes
  isMetaDownload : Bool
  fileList : Content
  completeHash : Bytes
  deriving DecidableEq

namespace Construction

def isValidPathElement : Object → Bool
  | .string _ s => s ≠ [] && s ≠ ascii "." && s ≠ ascii ".." && !s.contains (ch '/') && !s.contains 0
  | _ => false

variable (b : Object)

def parseName (d : Construction) : Except TorrentFault Construction := do
  if !isValidPathElement (← b.getKey "name") then
    .error (.inputError "Bad torrent file, \"name\" is an invalid path name.")
  else do
    let name ← b.getKeyString "name"
    .ok { d with name := name }

def singleLength (chunkSize : ℕ) : Except TorrentFault Int64 :=
  if chunkSize = 1 then .ok 1 else b.getKeyValue "length"

def parseSingleFile (chunkSize : ℕ) (c : Content) : Except TorrentFault Content := do
  if !isValidPathElement (← b.getKey "name") then
    .error (.inputError "Bad torrent file, \"name\" is an invalid path name.")
  else do
    let length ← singleLength b chunkSize
    if length.toInt < 0 then .error (.inputError "Bad torrent file, invalid length for file.")
    else do
      let c ← c.initializeFrom length.toInt.toNat chunkSize
      let path := Path.pushBack (← b.getKeyString "name") []
      if path = [] then .error (.inputError "Bad torrent file, an entry has no valid filename.")
      else do
        let c := { c with isMultiFile := false }.setFrontPath path
        c.updatePaths
        .ok c

def createPath (plist : List Object) : Except TorrentFault Path :=
  if plist = [] then .error (.inputError "Bad torrent file, \"path\" has zero entries.")
  else if plist.any fun o ↦ !isValidPathElement o then
    .error (.inputError "Bad torrent file, \"path\" has zero entries or a zero length entry.")
  else forEach (fun o p ↦ do .ok (Path.pushBack (← o.asString) p)) plist []

def entryPath (object : Object) : Except TorrentFault Path := do
  if ← object.hasKeyList "path" then createPath (← object.getKeyList "path") else .ok []

def entryPadding (object : Object) : Except TorrentFault Bool := do
  if ← object.hasKeyString "attr" then do .ok ((← object.getKeyString "attr").contains (ch 'p')) else .ok false

/-- One turn of the loop of `parse_multi_files`, with the size of the torrent so far. -/
def parseEntry (object : Object) (s : ℕ × List SplitFile) : Except TorrentFault (ℕ × List SplitFile) := do
  let path ← entryPath object
  if path = [] then .error (.inputError "Bad torrent file, an entry has no valid filename.")
  else do
    let length ← object.getKeyValue "length"
    if length.toInt < 0 ∨ (2 ^ 63 - 1 : ℤ) - s.1 < length.toInt then
      .error (.inputError "Bad torrent file, invalid length for file.")
    else do
      let padding ← entryPadding object
      .ok (s.1 + length.toInt.toNat, s.2 ++ [⟨length.toInt.toNat, path, padding⟩])

def parseMultiFiles (chunkSize : ℕ) (c : Content) : Except TorrentFault Content := do
  let objectList ← b.asList
  if objectList = [] then .error (.inputError "Bad torrent file, entry has no files.")
  else do
    let (torrentSize, splitList) ← forEach parseEntry objectList (0, [])
    let sortedPaths := (splitList.map SplitFile.path).mergeSort fun p q ↦ !Path.compareLess q p
    if adjacentFind Path.isPrefix sortedPaths then
      .error (.inputError "Bad torrent file, a file path is a duplicate or the prefix of another.")
    else do
      let c ← { c with isMultiFile := true }.initializeFrom torrentSize chunkSize
      let c ← c.split splitList
      c.updatePaths
      .ok c

def metaFlag (d : Construction) : Except TorrentFault Bool := do
  if ← b.hasKeyValue "meta_download" then do .ok (d.isMetaDownload || (← b.getKeyValue "meta_download") != 0)
  else .ok d.isMetaDownload

def parseChunkSize (isMetaDownload : Bool) (c : Content) : Except TorrentFault (ℕ × Content) := do
  if isMetaDownload then do
    if (← b.hasKey "length") || (← b.hasKey "files") then .error (.inputError "Meta-download has file entries.")
    else if (← b.getKeyString "pieces").length ≠ 20 then
      .error (.inputError "Meta-download has invalid piece data.")
    else do .ok (1, ← parseSingleFile b 1 c)
  else do
    let pieceLength ← b.getKeyValue "piece length"
    if pieceLength.toInt ≤ 2 ^ 10 ∨ 512 * 2 ^ 20 < pieceLength.toInt then
      .error (.inputError "Torrent has an invalid \"piece length\".")
    else .ok (pieceLength.toInt.toNat, c)

def parseFiles (chunkSize : ℕ) (d : Construction) : Except TorrentFault Content := do
  if ← b.hasKey "length" then parseSingleFile b chunkSize d.fileList
  else if ← b.hasKey "files" then do
    let c ← parseMultiFiles (← b.getKey "files") chunkSize d.fileList
    .ok (c.setRootDir (ascii "./" ++ d.name))
  else if !d.isMetaDownload then .error (.inputError "Torrent must have either length or files entry.")
  else .ok d.fileList

/-- `parse_info`, where `unordered` is `flag_unordered` of the dictionary. -/
def parseInfo (unordered : Bool) (b : Object) (d : Construction) : Except TorrentFault Construction :=
  if d.fileList.files ≠ [] then
    .error (.internalError "parse_info received an already initialized Content object.")
  else if unordered then .error (.inputError "Download has unordered info dictionary.")
  else do
    let isMeta ← metaFlag b d
    let (chunkSize, c) ← parseChunkSize b isMeta d.fileList
    let c ← parseFiles b chunkSize { d with isMetaDownload := isMeta, fileList := c }
    if c.torrentSize = 0 ∧ isMeta = false then .error (.inputError "Torrent has zero length.")
    else do
      let pieces ← b.getKeyString "pieces"
      if pieces.length / 20 < c.sizeChunks then
        .error (.bencodeError "Torrent size and 'info:pieces' length does not match.")
      else .ok { d with isMetaDownload := isMeta, fileList := c, completeHash := pieces }

def fresh : Construction := ⟨[], false, ⟨false, 0, 0, 0, [], []⟩, []⟩

/-- What `initialize` does with the info dictionary. -/
def construct (unordered : Bool) (info : Object) : Except TorrentFault Construction := do
  let d ← parseName info fresh
  parseInfo unordered info d

end Construction

open Content List LibTorrent.Path SplitFile

namespace Content

/-- What the sizes and paths of a file list are once it is filled. -/
structure Filled (c : Content) : Prop where
  chunkSize_pos : 0 < c.chunkSize
  chunkSize_le : c.chunkSize ≤ 2 ^ 29
  torrentSize_lt : c.torrentSize < 2 ^ 63
  sizeChunks_eq : c.sizeChunks = (c.torrentSize + c.chunkSize - 1) / c.chunkSize % 2 ^ 32
  sum_size : (c.files.map size).sum = c.torrentSize
  elements : ∀ f ∈ c.files, f.path ≠ [] ∧ ∀ e ∈ f.path, Path.IsElement e
  apart : (c.files.map path).Pairwise fun p q ↦ ¬ p <+: q ∧ ¬ q <+: p

variable {c : Content} {torrentSize chunkSize : ℕ}

structure Whole (torrentSize chunkSize : ℕ) (c : Content) : Prop where
  chunkSize_eq : c.chunkSize = chunkSize
  chunkSize_pos : 0 < chunkSize
  torrentSize_eq : c.torrentSize = torrentSize
  sizeChunks_eq : c.sizeChunks = (torrentSize + chunkSize - 1) / chunkSize % 2 ^ 32
  files_eq : c.files = [⟨torrentSize, [], false⟩]
  rootDir_eq : c.rootDir = ascii "."

theorem yields_initializeFrom (torrentSize chunkSize : ℕ) (hfiles : c.files = []) :
    Yields (c.initializeFrom torrentSize chunkSize) (Whole torrentSize chunkSize) := by
  refine .ite (fun _ ↦ not_false) fun hpos ↦ .ok ⟨rfl, Nat.pos_of_ne_zero hpos, rfl, rfl, ?_, rfl⟩
  rw [hfiles, nil_append]

theorem yields_split (h : c.Whole torrentSize chunkSize) (first : List SplitFile) :
    Yields (c.split first) fun c' ↦
      c' = { c with files := first } ∧ (first.map size).sum = torrentSize := by
  rw [split, h.files_eq]
  refine .either not_false (.ite (fun _ ↦ not_false) fun hsum ↦ .ok ?_)
  exact ⟨by rw [append_nil], not_not.mp hsum⟩

theorem Whole.filled (h : c.Whole torrentSize chunkSize) (hchunk : chunkSize ≤ 2 ^ 29) (hsize : torrentSize < 2 ^ 63)
    {files : List SplitFile} (hsum : (files.map size).sum = torrentSize)
    (helements : ∀ f ∈ files, f.path ≠ [] ∧ ∀ e ∈ f.path, Path.IsElement e)
    (hapart : (files.map path).Pairwise fun p q ↦ ¬ p <+: q ∧ ¬ q <+: p) (isMultiFile : Bool) :
    { c with isMultiFile := isMultiFile, files := files }.Filled where
  chunkSize_pos := h.chunkSize_eq ▸ h.chunkSize_pos
  chunkSize_le := h.chunkSize_eq ▸ hchunk
  torrentSize_lt := h.torrentSize_eq ▸ hsize
  sizeChunks_eq := by rw [h.sizeChunks_eq, h.chunkSize_eq, h.torrentSize_eq]
  sum_size := by rw [hsum, h.torrentSize_eq]
  elements := helements
  apart := hapart

theorem Filled.setRootDir (h : c.Filled) (path : Bytes) : (c.setRootDir path).Filled where
  chunkSize_pos := h.chunkSize_pos
  chunkSize_le := h.chunkSize_le
  torrentSize_lt := h.torrentSize_lt
  sizeChunks_eq := h.sizeChunks_eq
  sum_size := h.sum_size
  elements := h.elements
  apart := h.apart

end Content

namespace Construction

open Object

variable {b o : Object} {c : Content} {d : Construction} {k : String} {chunkSize : ℕ}

theorem yields_asString (ho : isValidPathElement o = true) : Yields o.asString Path.IsElement := by
  cases o with
  | string f s =>
    simp only [isValidPathElement, Bool.and_eq_true, decide_eq_true_eq, Bool.not_eq_true', contains_eq_mem,
      decide_eq_false_iff_not] at ho
    obtain ⟨⟨⟨⟨hempty, hdot⟩, hdotdot⟩, hslash⟩, hnul⟩ := ho
    exact .ok ⟨hempty, hdot, hdotdot, hslash, hnul⟩
  | _ => exact not_false

theorem yields_getKeyString (hk : b.getKey k = .ok o) (ho : isValidPathElement o = true) :
    Yields (b.getKeyString k) Path.IsElement := by
  rw [getKeyString, hk]
  exact yields_asString ho

theorem yields_parseName (b : Object) (d : Construction) :
    Yields (parseName b d) fun d' ↦ Path.IsElement d'.name ∧ d' = { d with name := d'.name } := by
  refine (yields_eq _).bind fun o ho ↦ .ite (fun _ ↦ not_false) fun hvalid ↦ ?_
  refine (yields_getKeyString ho (by simpa using hvalid)).bind fun name hname ↦ ?_
  exact .ok ⟨hname, rfl⟩

theorem yields_parseSingleFile (b : Object) (hfiles : c.files = []) (hchunk : chunkSize ≤ 2 ^ 29) :
    Yields (parseSingleFile b chunkSize c) fun c' ↦
      c'.Filled ∧ c'.rootDir = ascii "." ∧ (chunkSize = 1 → c'.torrentSize = 1) := by
  refine (yields_eq _).bind fun o ho ↦ .ite (fun _ ↦ not_false) fun hvalid ↦ ?_
  refine (yields_eq _).bind fun length hlength ↦ .either not_false ?_
  refine (yields_initializeFrom _ chunkSize hfiles).bind fun c' hc' ↦ ?_
  refine (yields_getKeyString ho (by simpa using hvalid)).bind fun name hname ↦ ?_
  refine .either not_false ((yields_true _).bind fun _ _ ↦ .ok ?_)
  have hpath : pushBack name [] = [name] := pushBack_of_slash hname.nonempty hname.slash []
  have hsize : length.toInt.toNat < 2 ^ 63 := by
    have := length.toInt_lt
    omega
  have hfront : ({ c' with isMultiFile := false }.setFrontPath [name]) =
      { c' with isMultiFile := false, files := [⟨length.toInt.toNat, [name], false⟩] } := by
    rw [setFrontPath, hc'.files_eq]
    rfl
  rw [hpath, hfront]
  refine ⟨hc'.filled hchunk hsize (by simp) (fun f hf ↦ ?_) (by simp) false, hc'.rootDir_eq, fun hone ↦ ?_⟩
  · rw [mem_singleton.mp hf]
    exact ⟨by simp, fun e he ↦ mem_singleton.mp he ▸ hname⟩
  rw [singleLength, if_pos hone] at hlength
  rw [← Except.ok.inj hlength] at hc'
  exact hc'.torrentSize_eq

theorem yields_createPath (plist : List Object) :
    Yields (createPath plist) fun p ↦ ∀ e ∈ p, Path.IsElement e := by
  refine .either not_false (.ite (fun _ ↦ not_false) fun hvalid ↦ ?_)
  have hall : ∀ o ∈ plist, isValidPathElement o = true := by simpa using hvalid
  let inv (l : List Object) (p : Path) : Prop := (∀ o ∈ l, isValidPathElement o = true) ∧ ∀ e ∈ p, Path.IsElement e
  have hstep (o : Object) (l : List Object) (p : Path) (hp : inv (o :: l) p) :
      Yields (do .ok (pushBack (← o.asString) p)) (inv l) := by
    refine (yields_asString (hp.1 o mem_cons_self)).bind fun s hs ↦ .ok ?_
    refine ⟨fun o' ho' ↦ hp.1 o' (mem_cons_of_mem _ ho'), fun e he ↦ ?_⟩
    rw [pushBack_of_slash hs.nonempty hs.slash, mem_append, mem_singleton] at he
    rcases he with he | rfl
    · exact hp.2 e he
    · exact hs
  exact (ensures_forEach hstep plist ⟨hall, by simp⟩).mono fun p hp ↦ hp.2

theorem yields_entryPath (object : Object) : Yields (entryPath object) fun p ↦ ∀ e ∈ p, Path.IsElement e := by
  refine (yields_true _).bind fun hasPath _ ↦ .either ?_ (.ok (by simp))
  exact (yields_true _).bind fun plist _ ↦ yields_createPath plist

structure Entries (s : ℕ × List SplitFile) : Prop where
  sum_size : (s.2.map size).sum = s.1
  size_lt : s.1 < 2 ^ 63
  elements : ∀ f ∈ s.2, f.path ≠ [] ∧ ∀ e ∈ f.path, Path.IsElement e

theorem yields_parseEntry (object : Object) (s : ℕ × List SplitFile) (h : Entries s) :
    Yields (parseEntry object s) Entries := by
  refine (yields_entryPath object).bind fun path hpath ↦ .ite (fun _ ↦ not_false) fun hne ↦ ?_
  refine (yields_true _).bind fun length _ ↦ .ite (fun _ ↦ not_false) fun hlength ↦ ?_
  refine (yields_true _).bind fun padding _ ↦ .ok ⟨?_, ?_, fun f hf ↦ ?_⟩
  · rw [map_append, sum_append, h.sum_size]
    simp
  · omega
  rcases mem_append.mp hf with hf | hf
  · exact h.elements f hf
  · rw [mem_singleton.mp hf]
    exact ⟨hne, hpath⟩

theorem yields_parseMultiFiles (b : Object) (hfiles : c.files = []) (hchunk : chunkSize ≤ 2 ^ 29) :
    Yields (parseMultiFiles b chunkSize c) Content.Filled := by
  refine (yields_true _).bind fun objectList _ ↦ .either not_false ?_
  have hentries : Yields (forEach parseEntry objectList (0, [])) Entries :=
    ensures_forEach_inv yields_parseEntry objectList ⟨rfl, by decide, by simp⟩
  refine hentries.bind fun s hs ↦ .ite (fun _ ↦ not_false) fun hnone ↦ ?_
  have hapart := pairwise_of_sort strict_byte.lexCompare isPrefix_iff (s.2.map path)
    (Bool.eq_false_of_not_eq_true hnone)
  have hinit := yields_initializeFrom (c := { c with isMultiFile := true }) s.1 chunkSize hfiles
  refine hinit.bind fun c' hc' ↦ ?_
  refine (yields_split hc' s.2).bind fun c'' hc'' ↦ (yields_true _).bind fun _ _ ↦ .ok ?_
  rw [hc''.1]
  exact hc'.filled hchunk hs.size_lt hs.sum_size hs.elements hapart c'.isMultiFile

structure Sized (b : Object) (isMeta : Bool) (chunkSize : ℕ) (c : Content) : Prop where
  files_eq : isMeta = false → c.files = []
  chunkSize_le : isMeta = false → chunkSize ≤ 2 ^ 29
  filled : isMeta = true → c.Filled ∧ c.rootDir = ascii "." ∧ c.torrentSize = 1
  length : isMeta = true → b.hasKey "length" = .ok false
  files : isMeta = true → b.hasKey "files" = .ok false

theorem yields_parseChunkSize (b : Object) (isMeta : Bool) (hfiles : c.files = []) :
    Yields (parseChunkSize b isMeta c) fun r ↦ Sized b isMeta r.1 r.2 := by
  cases isMeta with
  | true =>
    refine (yields_eq _).bind fun l hl ↦ (yields_eq _).bind fun f hf ↦ .ite (fun _ ↦ not_false) fun hno ↦ ?_
    have hnone : l = false ∧ f = false := by simpa using hno
    refine (yields_true _).bind fun _ _ ↦ .either not_false ?_
    refine (yields_parseSingleFile b hfiles (by decide)).bind fun c' hc' ↦ .ok ?_
    exact ⟨nofun, nofun, fun _ ↦ ⟨hc'.1, hc'.2.1, hc'.2.2 rfl⟩, fun _ ↦ hnone.1 ▸ hl, fun _ ↦ hnone.2 ▸ hf⟩
  | false =>
    refine (yields_true _).bind fun pieceLength _ ↦ .ite (fun _ ↦ not_false) fun hlength ↦ ?_
    refine .ok ⟨fun _ ↦ hfiles, fun _ ↦ ?_, nofun, nofun, nofun⟩
    omega

theorem rootDir_setRootDir (c : Content) {name : Bytes} (h : Path.IsElement name) :
    (c.setRootDir (ascii "./" ++ name)).rootDir = ascii "./" ++ name := by
  have hne : ascii "./" ++ name ≠ [] := append_ne_nil_of_right_ne_nil _ h.nonempty
  have hdrop : (ascii "./" ++ name).rdropWhile (· == ch '/') = ascii "./" ++ name := by
    refine rdropWhile_eq_self_iff.mpr fun hne ↦ ?_
    rw [getLast_append_of_ne_nil _ h.nonempty, beq_iff_eq]
    exact fun heq ↦ h.slash (heq ▸ getLast_mem h.nonempty)
  simp only [setRootDir, hdrop, if_neg hne]

/-- The files lie in the current directory, or in one with the name of the torrent. -/
def RootDir (name : Bytes) (c : Content) : Prop :=
  Path.IsElement name → c.rootDir = ascii "." ∨ c.rootDir = ascii "./" ++ name

theorem yields_parseFiles (h : Sized b d.isMetaDownload chunkSize d.fileList) :
    Yields (parseFiles b chunkSize d) fun c ↦
      c.Filled ∧ RootDir d.name c ∧ (d.isMetaDownload = true → c.torrentSize = 1) := by
  rw [parseFiles]
  cases hmeta : d.isMetaDownload with
  | true =>
    rw [h.length hmeta, h.files hmeta]
    obtain ⟨hfilled, hroot, hsize⟩ := h.filled hmeta
    exact .ok ⟨hfilled, fun _ ↦ .inl hroot, fun _ ↦ hsize⟩
  | false =>
    have hfiles := h.files_eq hmeta
    have hchunk := h.chunkSize_le hmeta
    refine (yields_true _).bind fun _ _ ↦ .either ?_ ?_
    · exact (yields_parseSingleFile b hfiles hchunk).mono fun c hc ↦ ⟨hc.1, fun _ ↦ .inl hc.2.1, nofun⟩
    refine (yields_true _).bind fun _ _ ↦ .either ?_ not_false
    refine (yields_true _).bind fun files _ ↦ (yields_parseMultiFiles files hfiles hchunk).bind fun c hc ↦ ?_
    exact .ok ⟨hc.setRootDir _, fun hname ↦ .inr (rootDir_setRootDir c hname), nofun⟩

theorem yields_parseInfo (unordered : Bool) (b : Object) (d : Construction) :
    Yields (parseInfo unordered b d) fun d' ↦
      d'.name = d.name ∧ d'.fileList.Filled ∧ RootDir d.name d'.fileList ∧
        d'.fileList.torrentSize ≠ 0 ∧ d'.fileList.sizeChunks ≤ d'.completeHash.length / 20 := by
  refine .ite (fun _ ↦ not_false) fun hfiles ↦ .either not_false ?_
  refine (yields_true _).bind fun isMeta _ ↦ ?_
  refine (yields_parseChunkSize b isMeta (not_not.mp hfiles)).bind fun r hr ↦ ?_
  have hsized : Sized b { d with isMetaDownload := isMeta, fileList := r.2 }.isMetaDownload r.1
      { d with isMetaDownload := isMeta, fileList := r.2 }.fileList := hr
  refine (yields_parseFiles hsized).bind fun c hc ↦ .ite (fun _ ↦ not_false) fun hzero ↦ ?_
  refine (yields_true _).bind fun pieces _ ↦ .ite (fun _ ↦ not_false) fun hpieces ↦ .ok ?_
  refine ⟨rfl, hc.1, hc.2.1, fun hsize ↦ hzero ⟨hsize, Bool.eq_false_of_not_eq_true fun hmeta ↦ ?_⟩,
    not_lt.mp hpieces⟩
  exact absurd ((hc.2.2 hmeta).symm.trans hsize) (by decide)

theorem resolve_rootDir {name : Bytes} (hname : Path.IsElement name) (h : RootDir name c) :
    resolve c.rootDir = [] ∨ resolve c.rootDir = [name] := by
  rcases h hname with hroot | hroot
  · rw [hroot]
    exact .inl (by decide)
  have hsplit : ascii "./" ++ name = ascii "." ++ asString [name] := by
    rw [Path.asString, flatMap_singleton]
    rfl
  have hdot : resolve (ascii ".") = [] := by decide
  rw [hroot, hsplit, resolve_asString _ fun e he ↦ mem_singleton.mp he ▸ hname, hdot]
  exact .inr rfl

/-- A torrent that is accepted has a proper name and proper paths, of which none begins another, and its files lie
below the root directory. -/
theorem construct_paths (unordered : Bool) (info : Object) : Yields (construct unordered info) fun d ↦
      Path.IsElement d.name ∧
      (d.fileList.files.map path).Pairwise (fun p q ↦ ¬ p <+: q ∧ ¬ q <+: p) ∧
      (∀ f ∈ d.fileList.files, f.path ≠ [] ∧ ∀ e ∈ f.path, Path.IsElement e) ∧
      (resolve d.fileList.rootDir = [] ∨ resolve d.fileList.rootDir = [d.name]) ∧
      ∀ f ∈ d.fileList.files,
        resolve (d.fileList.rootDir ++ asString f.path) = resolve d.fileList.rootDir ++ f.path := by
  refine (yields_parseName info fresh).bind fun d hd ↦ (yields_parseInfo unordered info d).mono ?_
  rintro d' ⟨hname, hfilled, hroot, -, -⟩
  rw [hname]
  exact ⟨hd.1, hfilled.apart, hfilled.elements, resolve_rootDir hd.1 hroot,
    fun f hf ↦ resolve_asString _ (hfilled.elements f hf).2⟩

def fileEntry (name : String) : Object :=
  .map 0 [(ascii "length", .value 0 1), (ascii "path", .list 0 [.string 0 (ascii "d"), .string 0 (ascii name)])]

def twoFiles : Object :=
  .map 0 [(ascii "files", .list 0 [fileEntry "a", fileEntry "b"]), (ascii "name", .string 0 (ascii "n")),
    (ascii "piece length", .value 0 2048), (ascii "pieces", .string 0 (replicate 20 0))]

def twoSplit : List SplitFile := [⟨1, [ascii "d", ascii "a"], false⟩, ⟨1, [ascii "d", ascii "b"], false⟩]

theorem parseMultiFiles_two : parseMultiFiles (.list 0 [fileEntry "a", fileEntry "b"]) 2048 fresh.fileList =
    .ok ⟨true, 2048, 2, 1, ascii ".", twoSplit⟩ := by
  have hentries : forEach parseEntry [fileEntry "a", fileEntry "b"] (0, []) = .ok (2, twoSplit) := by decide +kernel
  -- The sort is by well-founded recursion, so it is not evaluated: the paths are in order already.
  have hsort : (twoSplit.map path).mergeSort (fun p q ↦ !compareLess q p) = twoSplit.map path :=
    mergeSort_of_pairwise (by decide)
  simp only [parseMultiFiles, asList, hentries, bind, Except.bind, hsort]
  decide

theorem construct_paths_two : ∃ d, construct false twoFiles = .ok d ∧ d.fileList.files = twoSplit ∧
    ∀ f ∈ twoSplit, resolve (d.fileList.rootDir ++ asString f.path) = ascii "n" :: f.path := by
  have hfiles : parseFiles twoFiles 2048 { fresh with name := ascii "n" } =
      .ok ⟨true, 2048, 2, 1, ascii "./n", twoSplit⟩ := by
    change (do let c ← parseMultiFiles _ 2048 fresh.fileList; .ok (c.setRootDir _)) = _
    rw [parseMultiFiles_two]
    decide
  have hd : construct false twoFiles =
      .ok ⟨ascii "n", false, ⟨true, 2048, 2, 1, ascii "./n", twoSplit⟩, replicate 20 0⟩ := by
    change (do let c ← parseFiles twoFiles 2048 { fresh with name := ascii "n" }; _) = _
    rw [hfiles]
    decide
  have hroot : resolve (ascii "./n") = [ascii "n"] := by decide
  refine ⟨_, hd, rfl, fun f hf ↦ ?_⟩
  rw [((construct_paths false twoFiles).of_ok hd).2.2.2.2 f hf, hroot, singleton_append]

end Construction

end LibTorrent

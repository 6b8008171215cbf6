import CloudBackup.BackupDirectory
import CloudBackup.HttpCallbacks

/-!
# The metadata file

The records of the store are written to one JSON file by a thread of their
own. A new `DataManager` reads that file and then goes through the backup
directory: files without a record are removed, records without a file erased.
-/

set_option autoImplicit false

namespace CloudBackup.MetadataFile
open CloudBackup.ByteStrings CloudBackup.JsonCodec CloudBackup.FilePath CloudBackup.BackupDirectory
open CloudBackup.FileStore CloudBackup.DataManager CloudBackup.HttpCallbacks

def metaFile (env : Env) : Bytes := pathTransform env env.dataManagerFilepath

def metaPath (env : Env) : Bytes := cstr (metaFile env)

def backupDir (env : Env) : Bytes := pathTransform env env.backupFileDir

/-- `root` of a storage pass. -/
def metadata (infos : List BackupInfoNode) : Json :=
  if infos = [] then .null else .array (infos.map fileNode)

/-- `none` where a member has the wrong type. -/
def itemInfo (item : Json) : Option BackupInfoNode :=
  (item.field (bytes "filename")).bind fun f => f.asString.bind fun filename =>
  (item.field (bytes "size")).bind fun z => z.asInt64.bind fun size =>
  (item.field (bytes "time")).bind fun t => t.asInt64.map fun time =>
    { filename := filename, size := size, time := time }

def acceptable (info : BackupInfoNode) : Bool := info.filename ≠ [] && 0 ≤ info.size

def addRecord (s : Store) (info : BackupInfoNode) : Store :=
  { s with
    hash := s.hash.insert info.filename (some s.nextNode)
    nodes := Function.update s.nodes s.nextNode { info := info, filePreContent := [] }
    nextNode := s.nextNode+1 }

def loadRecords (infos : List BackupInfoNode) (s : Store) : Store :=
  infos.foldl (fun s info => if acceptable info then addRecord s info else s) s

/-- The whole metadata file as far as `GetContent` reads it. -/
def maxContent : ℕ := 2^32-1

/-- A false first component is an exit of the process. -/
def loadFromFile (env : Env) (codec : Codec) (s : Store) : Bool × Store :=
  let r := getContent (metaFile env) 0 maxContent s.disk
  let s := { s with disk := r.2 }
  match r.1 with
  | none => (false, s)
  | some content =>
    if content = [] then (true, s)
    else
      match (codec.deserialize content).bind fun root => root.items.mapM itemInfo with
      | none => (false, s)
      | some infos => (true, loadRecords infos s)

/-- A name as the operating system lists it; the two dots are skipped. -/
def isEntry (name : Bytes) : Bool :=
  name ≠ [] && slash ∉ name && 0 ∉ name && name ≠ bytes "." && name ≠ bytes ".."

def isChild (dir path : Bytes) : Bool :=
  (withSlash dir).isPrefixOf path && isEntry (path.drop (withSlash dir).length)

def scanDirectory (env : Env) (path : Bytes) (d : Disk) : Option (List Bytes) :=
  if !fileExists env path d then none
  else if !env.isDirectory (cstr path) then none
  else some ((d.files.keys.filter (isChild (cstr path))).map (pathTransform env))

/-- `GetFileName` of a path that is neither empty nor the root. -/
def getFileName (path : Bytes) : Bytes :=
  ((dropTrailingSlash path).reverse.takeWhile (· ≠ slash)).reverse

def hasRecord (s : Store) (file : Bytes) : Bool := (s.hash.lookup (getFileName file)).isSome

def removeOrphans (env : Env) (s : Store) (files : List Bytes) : Disk :=
  files.foldl (fun d file => if hasRecord s file then
    d else (removeRegularFile env file d).2) s.disk

def verifyFileLegality (env : Env) (s : Store) : Store :=
  match scanDirectory env (backupDir env) s.disk with
  | none => s
  | some files =>
    let backupFiles := (files.filter (hasRecord s)).map getFileName
    let notBackupFiles := s.hash.keys.filter fun filename => filename ∉ backupFiles
    { s with
      hash := notBackupFiles.foldl (fun hash filename => hash.erase filename) s.hash
      isDirty := s.isDirty || notBackupFiles ≠ []
      disk := removeOrphans env s files }

/-- The constructor of `DataManager`. -/
def construct (env : Env) (codec : Codec) (clock : ℕ → ℤ) (disk : Disk) : Bool × Store :=
  let a := if fileExists env (metaFile env) disk then (true, disk)
    else appendContent env (metaFile env) (bytes "null") disk
  let s := Store.fresh clock a.2
  if !a.1 then (false, s)
  else
    let l := loadFromFile env codec s
    if l.1 then (true, verifyFileLegality env l.2) else l

end CloudBackup.MetadataFile

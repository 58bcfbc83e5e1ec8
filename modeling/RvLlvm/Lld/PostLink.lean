import RvLlvm.Packer.Lz4Packer

/-!
# BOLT and the packers behind a link

Model of `runBoltAndPack` and of `selectBestPayloadCandidate` (`lld/ELF/Driver.cpp:2883-3433`),
without an execution baseline, as they are compiled. Files are byte lists under their names. What
the external steps do is a `World`: each names one outcome for one step, since no step with the same
arguments runs twice. A tool leaves at its output what it likes, a missing file included; `cp`
copies, or fails without touching its target, or fails with the end of the file missing. The
temporary directory of the legacy packer is fresh, so that of its files only the payload is here;
log lines are left out, `bolt.log` is not.
-/

namespace RvLlvm.Lld.PostLink

open Packer.Lz4

abbrev Bytes := List UInt8

/-! ## Files -/

abbrev Files := String → Option Bytes

/-- A file written, or removed. -/
def Files.put (fs : Files) (path : String) (b : Option Bytes) : Files := Function.update fs path b

def Files.unlink (fs : Files) (path : String) : Files := fs.put path none

/-- `fileSizeOf`. -/
def fileSizeOf (fs : Files) (path : String) : Int :=
  match fs path with
  | none => -1
  | some b => b.length

/-! ## External steps -/

/-- What `cp` does: `cut` leaves out that many bytes at the end and fails. -/
inductive CopyOutcome | copied | untouched | cut (missing : Nat)
deriving DecidableEq

/-- What a tool returns and what is at its output then. -/
structure ToolOutcome where
  ok : Bool
  output : Option Bytes

/-- The steps of `packWithLegacyPacker`. -/
structure LegacySteps where
  toolsPresent : Bool
  tempDir : Bool
  mkdir : Bool
  stub : Bool
  copyPayload : Bool
  packPy : Bool
  headers : Bool
  final : ToolOutcome
  strip : ToolOutcome
  objcopy : ToolOutcome
  chmod : Bool

/-- The steps of `packWithLZ4`. -/
structure LZ4Steps where
  read : Bool
  write : Bool
  chmod : Bool
  rename : Bool

/-- The steps of `selectBestPayloadCandidate`. -/
structure PackSteps where
  legacyCopy : CopyOutcome
  legacy : LegacySteps
  lz4Copy : CopyOutcome
  lz4 : LZ4Steps

/-- The steps of `runBoltAndPack`; `install` is the copy onto the output path, which ends the
run. -/
structure World where
  backup : CopyOutcome
  normalize : ToolOutcome
  rename : Bool
  log : Option Bytes
  bolt : ToolOutcome
  align : ToolOutcome
  packBolt : PackSteps
  packPrebolt : PackSteps
  install : CopyOutcome

/-- `cp`. -/
def cp (o : CopyOutcome) (src dst : String) (fs : Files) : Bool × Files :=
  match fs src, o with
  | none, _ => (false, fs)
  | some b, .copied => (true, fs.put dst (some b))
  | some _, .untouched => (false, fs)
  | some b, .cut missing => (false, fs.put dst (some (b.take (b.length - missing))))

/-- `rename`. -/
def rename (ok : Bool) (src dst : String) (fs : Files) : Bool × Files :=
  match fs src with
  | none => (false, fs)
  | some b => if ok then (true, (fs.put dst (some b)).unlink src) else (false, fs)

/-- `copyFileForCandidate`. -/
def copyFileForCandidate (o : CopyOutcome) (src dst : String) (fs : Files) : Bool × Files :=
  let r := cp o src dst fs
  (r.1 && decide (0 < fileSizeOf r.2 dst), r.2)

/-! ## The packers -/

/-- `packWithLegacyPacker`. -/
def packWithLegacyPacker (s : LegacySteps) (path : String) (fs : Files) : Bool × Files :=
  if (fs path).isNone || !(s.toolsPresent && s.tempDir && s.mkdir && s.stub && s.copyPayload &&
      s.packPy && s.headers) then (false, fs)
  else if !s.final.ok then (false, fs.put path s.final.output)
  else if !s.strip.ok then (false, fs.put path s.strip.output)
  else if !s.objcopy.ok then (false, fs.put path s.objcopy.output)
  else (s.chmod, fs.put path s.objcopy.output)

/-- `packWithLZ4` on a file. -/
def packFileWithLZ4 (compress : Compress) (s : LZ4Steps) (path : String) (fs : Files) :
    Bool × Files :=
  match fs path with
  | none => (false, fs)
  | some input =>
    if !s.read || input.isEmpty then (false, fs)
    else match packWithLZ4 compress input with
      | none => (false, fs)
      | some out =>
        let tmp := path ++ ".lz4.tmp"
        if !s.write || !s.chmod then (false, fs.unlink tmp)
        else
          let r := rename s.rename tmp path (fs.put tmp (some out))
          if r.1 then (true, r.2) else (false, r.2.unlink tmp)

/-! ## Candidates -/

/-- `PayloadCandidate`. -/
structure PayloadCandidate where
  path : String
  label : String
  size : Int
deriving DecidableEq

/-- `requireChecksum`, `baselineHex` and `runQemuAndGetChecksumCtx`. -/
structure Checksum where
  required : Bool
  baselineHex : String
  hexOf : Option Bytes → Option String

/-- `addVerifiedPayloadCandidate`. -/
def addVerifiedPayloadCandidate (c : Checksum) (cands : List PayloadCandidate) (path label : String)
    (fs : Files) : Bool × List PayloadCandidate :=
  if fileSizeOf fs path ≤ 0 then (false, cands)
  else if c.required ∧ c.hexOf (fs path) ≠ some c.baselineHex then (false, cands)
  else (true, cands ++ [⟨path, label, fileSizeOf fs path⟩])

/-- `std::min_element` by size: the first of the smallest. -/
def minElement : List PayloadCandidate → Option PayloadCandidate
  | [] => none
  | c :: rest => some (rest.foldl (fun best d => if d.size < best.size then d else best) c)

/-- A copy of the input is packed, and kept when it is accepted. -/
def addPacked (c : Checksum) (o : CopyOutcome) (pack : String → Files → Bool × Files)
    (inputPath path label : String) (cands : List PayloadCandidate) (fs : Files) :
    List PayloadCandidate × Files :=
  let copy := copyFileForCandidate o inputPath path fs
  if copy.1 then
    let packed := pack path copy.2
    let added := if packed.1 then addVerifiedPayloadCandidate c cands path label packed.2
      else (false, cands)
    (added.2, if added.1 then packed.2 else packed.2.unlink path)
  else (cands, copy.2)

/-- `sanitizePathTag`. -/
def sanitizePathTag (s : String) : String :=
  String.ofList (s.toList.map fun c => if c.isAlphanum || c == '.' || c == '_' || c == '-' then
    c else '_')

/-- The candidates whose path is not among `kept` are removed. -/
def unlinkOthers (kept : List String) (cands : List PayloadCandidate) (fs : Files) : Files :=
  cands.foldl (fun fs c => if c.path ∈ kept then fs else fs.unlink c.path) fs

/-- The candidates of `selectBestPayloadCandidate`: the input, and packed when it has more than
50000 bytes. -/
def gatherCandidates (compress : Compress) (c : Checksum) (s : PackSteps)
    (inputPath candPath : String)
    (fs : Files) : List PayloadCandidate × Files :=
  let plain := (addVerifiedPayloadCandidate c [] inputPath "plain" fs).2
  if 50000 < fileSizeOf fs inputPath then
    let legacy := addPacked c s.legacyCopy (packWithLegacyPacker s.legacy) inputPath
      (candPath ++ ".legacy.tmp") "legacy" plain fs
    addPacked c s.lz4Copy (packFileWithLZ4 compress s.lz4) inputPath (candPath ++ ".lz4.tmp") "lz4"
      legacy.1 legacy.2
  else (plain, fs)

/-- `selectBestPayloadCandidate`. -/
def selectBestPayloadCandidate (compress : Compress) (c : Checksum) (s : PackSteps)
    (inputPath objPath offsetLbl : String) (fs : Files) : Option PayloadCandidate × Files :=
  let candPath := objPath ++ ".cand." ++
    sanitizePathTag (if offsetLbl = "" then "none" else offsetLbl)
  let all := gatherCandidates compress c s inputPath candPath fs
  match minElement all.1 with
  | none => (none, all.2)
  | some best => (some best, unlinkOthers [best.path, inputPath] all.1 all.2)

/-! ## The run -/

/-- `boltOnce`: the raw and the aligned output. -/
def boltOnce (w : World) (objPath : String) (fs : Files) : Option (String × String) × Files :=
  let rawFile := objPath ++ ".opt.out"
  let alignedFile := objPath ++ ".bolt.aligned.tmp"
  let logged := if w.log.isSome then fs.put "bolt.log" w.log else fs
  let bolted := logged.put rawFile w.bolt.output
  if !w.bolt.ok || decide (fileSizeOf bolted rawFile ≤ 0) then (none, bolted)
  else
    let aligned := bolted.put alignedFile w.align.output
    if !w.align.ok then (none, aligned) else (some (rawFile, alignedFile), aligned)

/-- No checksum is asked for. -/
def noChecksum : Checksum := ⟨false, "", fun _ => none⟩

/-- `addSizeCandidates`. -/
def addSizeCandidates (compress : Compress) (s : PackSteps) (objPath input source : String)
    (cands : List PayloadCandidate) (fs : Files) : List PayloadCandidate × Files :=
  let r := selectBestPayloadCandidate compress noChecksum s input objPath
    ("no-oracle-" ++ source) fs
  match r.1 with
  | none => (cands, r.2)
  | some best => (cands ++ [⟨best.path, source ++ "-" ++ best.label,
    fileSizeOf r.2 best.path⟩], r.2)

/-- The candidates after BOLT, and the copy of the best one or of the image before BOLT. -/
def selectAndInstall (compress : Compress) (w : World) (objPath rawOnce alignedOnce : String)
    (fs : Files) : Files :=
  let preboltBackup := objPath ++ ".prebolt"
  let bolt := addSizeCandidates compress w.packBolt objPath alignedOnce "bolt" [] fs
  let all := addSizeCandidates compress w.packPrebolt objPath preboltBackup "prebolt" bolt.1 bolt.2
  let preboltSize := fileSizeOf all.2 preboltBackup
  match (minElement all.1).filter fun best =>
      decide (0 < preboltSize) && decide (0 < best.size) && decide (best.size < preboltSize) with
  | none =>
    let cleaned := ((unlinkOthers [preboltBackup] all.1 all.2).unlink rawOnce).unlink alignedOnce
    (copyFileForCandidate w.install preboltBackup objPath cleaned).2
  | some best =>
    let others := unlinkOthers [best.path] all.1 all.2
    let noRaw := if rawOnce = best.path then others else others.unlink rawOnce
    let noAligned := if alignedOnce = best.path then noRaw else noRaw.unlink alignedOnce
    let installed := (copyFileForCandidate w.install best.path objPath noAligned).2
    if best.path = preboltBackup then installed else installed.unlink best.path

/-- `runBoltAndPack`. -/
def runBoltAndPack (compress : Compress) (w : World) (objPath : String) (fs : Files) : Files :=
  let preboltBackup := objPath ++ ".prebolt"
  let backup := cp w.backup objPath preboltBackup fs
  if !backup.1 then backup.2
  else
    let normalized := objPath ++ ".prebolt.normalized.tmp"
    let written := backup.2.put normalized w.normalize.output
    let renamed := if w.normalize.ok then rename w.rename normalized objPath written else
      (false, written)
    if !renamed.1 then renamed.2.unlink normalized
    else if fileSizeOf renamed.2 preboltBackup ≤ 0 then renamed.2
    else
      let bolt := boltOnce w objPath renamed.2
      match bolt.1 with
      | none => (copyFileForCandidate w.install preboltBackup objPath bolt.2).2
      | some (rawOnce, alignedOnce) => selectAndInstall compress w objPath rawOnce
        alignedOnce bolt.2

end RvLlvm.Lld.PostLink

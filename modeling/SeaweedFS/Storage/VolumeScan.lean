import SeaweedFS.Storage.Volume

/-!
# `weed/storage/volume_read.go`, `volume_backup.go`: scanning a volume

`ScanVolumeFileFrom` walks over the records of a `.dat` file; a scanner visits them. The scanner
`VolumeFileScanner4GenIdx` fills a needle map from the records alone.
-/

namespace Storage

open Lib Util

/-- `VolumeFileScanner`, with the state that it changes. The bytes of the header and of the body no scanner here
looks at. -/
structure VolumeFileScanner (σ : Type) where
  readNeedleBody : Bool
  visitNeedle : σ → Needle → Nat → Except VolumeError σ

variable {σ : Type}

/-- The needle to visit. A body that cannot be read is logged, and the needle visited as it is. -/
def VolumeFileScanner.needleOf (scanner : VolumeFileScanner σ) (n : Needle) (datBackend : File)
    (version : Version) (offset : Nat) (rest : Int) : Except VolumeError Needle :=
  if scanner.readNeedleBody then
    match n.readNeedleBody datBackend version (offset + needleHeaderSize) rest with
    | .ok n => .ok n
    | .error (_, .outOfBounds) => .error (.needle .outOfBounds)
    | .error (n, _) => .ok n
  else .ok n

/-- The loop of `ScanVolumeFileFrom`, with the message of a header that cannot be read. A scan of more records than
there are bytes goes back and never ends. -/
def scanLoop (version : Version) (datBackend : File) (scanner : VolumeFileScanner σ) :
    Nat → (Int → NeedleError → VolumeError) → Int → σ → Except VolumeError σ
  | 0, _, _, _ => .error .endless
  | fuel + 1, cannotRead, offset, s =>
    if offset < 0 then .error (cannotRead offset .outOfBounds)
    else
      match readNeedleHeader datBackend version offset.toNat with
      | .error .eof => .ok s
      | .error err => .error (cannotRead offset err)
      | .ok (n, rest) => do
        let n ← scanner.needleOf n datBackend version offset.toNat rest
        let s ← (scanner.visitNeedle s n offset.toNat).mapError .visitNeedle
        scanLoop version datBackend scanner fuel .readNeedleHeader (offset + needleHeaderSize + rest) s

/-- `ScanVolumeFileFrom`. -/
def scanVolumeFileFrom (version : Version) (datBackend : File) (offset : Nat)
    (scanner : VolumeFileScanner σ) (s : σ) : Except VolumeError σ :=
  scanLoop version datBackend scanner (datBackend.length + 1) .readFirst offset s

/-- `VolumeFileScanner4GenIdx`: the state is the volume of the scanner. -/
def volumeFileScanner4GenIdx : VolumeFileScanner Volume where
  readNeedleBody := false
  visitNeedle v n offset :=
    if n.size > 0 ∧ n.size.isValid = true then v.putEntry n.id (toOffset offset) n.size
    else v.deleteEntry n.id (toOffset offset)

/-- The needle map of a volume, built again from the `.dat` file. -/
def Volume.rebuildIndex (v : Volume) (kind : NeedleMapKind) : Except VolumeError Volume :=
  scanVolumeFileFrom v.version v.dat superBlockSize volumeFileScanner4GenIdx
    { v with nm := .new kind }

end Storage

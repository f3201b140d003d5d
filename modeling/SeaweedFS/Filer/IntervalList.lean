import SeaweedFS.Filer.FileChunk

/-!
# `weed/filer/interval_list.go`: inserting one interval at a time

`insertInterval` walks along the list and cuts `interval` and the nodes it meets. The nodes up to `prev` are
held last one first; the list from `Front()` is `before.reverse ++ rest` with `next` at the head of `rest`.
`Prev` links are not read by the loop and not kept.
-/

namespace Filer

variable {T : Type} [IntervalValue T]

/-- The part `[start, stop)` of an interval; `SetStartStop` on its value. -/
def Interval.cut (i : Interval T) (start stop : Int) : Interval T :=
  { i with
    startOffset := start
    stopOffset := stop
    value := IntervalValue.setStartStop i.value start stop }

/-- The loop of `insertInterval`. -/
def insertLoop (before : List (Interval T)) (interval : Interval T) (rest : List (Interval T)) :
    IntervalList T :=
  if interval.startOffset < interval.stopOffset then
    match rest with
    | [] => before.reverse ++ [interval]
    | next :: rest =>
      if interval.stopOffset ≤ next.startOffset then
        -- interval is ahead of the next
        before.reverse ++ interval :: next :: rest
      else if next.stopOffset ≤ interval.startOffset then
        -- interval is after the next
        insertLoop (next :: before) interval rest
      else if interval.tsNs ≥ next.tsNs then
        if next.startOffset < interval.startOffset then
          -- left side of next is ahead of interval
          let t := next.cut next.startOffset interval.startOffset
          let next := next.cut interval.startOffset next.stopOffset
          if interval.stopOffset < next.stopOffset then
            -- right side of next is after interval
            (t :: before).reverse ++ interval :: next.cut interval.stopOffset next.stopOffset :: rest
          else insertLoop (t :: before) interval rest
        else if interval.stopOffset < next.stopOffset then
          before.reverse ++ interval :: next.cut interval.stopOffset next.stopOffset :: rest
        else insertLoop before interval rest
      else if interval.startOffset < next.startOffset then
        -- left side of interval is ahead of next
        let t := interval.cut interval.startOffset next.startOffset
        let interval := interval.cut next.startOffset interval.stopOffset
        if next.stopOffset < interval.stopOffset then
          -- right side of interval is after next
          insertLoop (t :: before) (interval.cut next.stopOffset interval.stopOffset) (next :: rest)
        else (t :: before).reverse ++ next :: rest
      else if next.stopOffset < interval.stopOffset then
        insertLoop before (interval.cut next.stopOffset interval.stopOffset) (next :: rest)
      else before.reverse ++ next :: rest
  else before.reverse ++ rest
termination_by (rest.length, (interval.stopOffset - interval.startOffset).toNat)
decreasing_by
  all_goals first
    | (apply Prod.Lex.right; simp only [Interval.cut] at *; omega)
    | (apply Prod.Lex.left; simp)

/-- `insertInterval`. -/
def IntervalList.insertInterval (list : IntervalList T) (interval : Interval T) : IntervalList T :=
  insertLoop [] interval list

/-- `InsertInterval`. -/
def IntervalList.InsertInterval (list : IntervalList T) (startOffset stopOffset tsNs : Int)
    (value : T) : IntervalList T :=
  list.insertInterval
    { startOffset := startOffset
      stopOffset := stopOffset
      tsNs := tsNs
      value := IntervalValue.setStartStop value startOffset stopOffset }

/-- `MergeIntoVisibles`. -/
def mergeIntoVisibles (visibles : IntervalList VisibleInterval) (start stop : Int)
    (chunk : FileChunk) : IntervalList VisibleInterval :=
  visibles.InsertInterval start stop chunk.modifiedTsNs
    { start := start
      stop := stop
      fileId := chunk.getFileIdString
      modifiedTsNs := chunk.modifiedTsNs
      offsetInChunk := start - chunk.offset
      chunkSize := chunk.size
      cipherKey := chunk.cipherKey
      isGzipped := chunk.isCompressed }

/-- `MergeIntoChunkViews`. -/
def mergeIntoChunkViews (chunkViews : IntervalList ChunkView) (start stop : Int)
    (chunk : FileChunk) : IntervalList ChunkView :=
  chunkViews.InsertInterval start stop chunk.modifiedTsNs
    { fileId := chunk.getFileIdString
      offsetInChunk := start - chunk.offset
      viewSize := uint64 (stop - start)
      viewOffset := start
      chunkSize := chunk.size
      cipherKey := chunk.cipherKey
      isGzipped := chunk.isCompressed
      modifiedTsNs := chunk.modifiedTsNs }

/-- The chunks, one at a time and each over its full range, into an empty list. -/
def mergeAllIntoVisibles (chunks : List FileChunk) : IntervalList VisibleInterval :=
  chunks.foldl (fun visibles chunk => mergeIntoVisibles visibles chunk.offset chunk.stop chunk) []

end Filer

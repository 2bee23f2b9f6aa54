import Mathlib.Data.List.Basic

/-!
# Framed word streams

A frame of `w` words travels through the buffers of FShark as a header word
`2 * (w - 1)` followed by the words themselves.  `encode` is that image of one
frame and `stream` the concatenation for a sequence of frames.
-/

namespace Patmos.Frames

/-- The header of a frame: the byte offset of its last word. -/
def header (ws : List Nat) : Nat := 2 * (ws.length - 1)

/-- A frame with its header in front. -/
def encode (ws : List Nat) : List Nat := header ws :: ws

/-- The frames of `fs` one after the other. -/
def stream (fs : List (List Nat)) : List Nat := fs.flatMap encode

@[simp] theorem encode_length (ws : List Nat) : (encode ws).length = ws.length + 1 := rfl

@[simp] theorem stream_nil : stream [] = [] := rfl

@[simp] theorem stream_cons (f : List Nat) (fs : List (List Nat)) :
    stream (f :: fs) = encode f ++ stream fs := rfl

theorem stream_append (fs gs : List (List Nat)) :
    stream (fs ++ gs) = stream fs ++ stream gs := by
  simp [stream, List.flatMap_append]

@[simp] theorem stream_concat (fs : List (List Nat)) (f : List Nat) :
    stream (fs ++ [f]) = stream fs ++ encode f := by
  simp [stream_append]

end Patmos.Frames

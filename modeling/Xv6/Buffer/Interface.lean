import Xv6.Disk.Format
import Xv6.Library.Program

/-! What the functions of `kern/log.c` and `kern/fs.c` ask of the buffer cache.

`H` is the type of `struct buf *`; the pointers of one machine are not those of
another, so the programs take it as a parameter.
-/

set_option autoImplicit false

namespace Xv6

open Library

inductive Bio.Request (H : Type) where
  | bread (dev blockno : UInt32)
  | blockno (b : H)
  | data (b : H)
  | setData (b : H) (data : Block)
  | bwrite (b : H)
  | brelse (b : H)
  | bpin (b : H)
  | bunpin (b : H)
  /-- a panic, an access outside an array, or the end of a function without its `return` -/
  | fault

/-- The requests on buffers that `bread` returned. -/
def Bio (H : Type) : Interface where
  Request := Bio.Request H
  Reply
    | .bread .. => H
    | .blockno _ => UInt32
    | .data _ => Block
    | .setData .. | .bwrite _ | .brelse _ | .bpin _ | .bunpin _ => Unit
    | .fault => Empty

namespace Bio

variable {H : Type}

def bread (dev blockno : UInt32) : Program (Bio H) H := .request (I := Bio H) (.bread dev blockno)

-- `b->blockno`
def blockno (b : H) : Program (Bio H) UInt32 := .request (I := Bio H) (.blockno b)

-- `b->data`
def data (b : H) : Program (Bio H) Block := .request (I := Bio H) (.data b)

def setData (b : H) (data : Block) : Program (Bio H) Unit := .request (I := Bio H) (.setData b data)

def bwrite (b : H) : Program (Bio H) Unit := .request (I := Bio H) (.bwrite b)

def brelse (b : H) : Program (Bio H) Unit := .request (I := Bio H) (.brelse b)

def bpin (b : H) : Program (Bio H) Unit := .request (I := Bio H) (.bpin b)

def bunpin (b : H) : Program (Bio H) Unit := .request (I := Bio H) (.bunpin b)

def fault {A : Type} : Program (Bio H) A := .call .fault Empty.elim

end Bio

end Xv6

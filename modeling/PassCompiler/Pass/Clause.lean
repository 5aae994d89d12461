import PassCompiler.Text.Bytes

/-! The keywords of a graph source. -/
namespace PassCompiler

namespace Keyword

def passBegin : Bytes := bytes "PASS_BEGIN"
def passEnd : Bytes := bytes "PASS_END"
def fixedBegin : Bytes := bytes "FIXED_BEGIN"
def fixedEnd : Bytes := bytes "FIXED_END"

end Keyword

inductive Clause where
  /-- Graphics resources the pass reads. -/
  | read
  /-- Graphics resources the pass writes. -/
  | write
  /-- Graphics resources the pass reads and writes. -/
  | readWrite
  /-- Anything else the pass needs: pipelines, windows, numbers. -/
  | input
  deriving DecidableEq, Repr

namespace Clause

def all : List Clause := [read, write, readWrite, input]

def keyword : Clause → Bytes
  | read => bytes "READ"
  | write => bytes "WRITE"
  | readWrite => bytes "READ_WRITE"
  | input => bytes "INPUT"

def ofKeyword? (word : Bytes) : Option Clause := all.find? (·.keyword == word)

end Clause
end PassCompiler

import NeuralDispatch.Revision

/-!
# Operation types

The operations a graph node can stand for.  Their codes are fixed: they enter hashes and cache
files.  `ofCode?_code` says that a code read back is the type it was written for.
-/

namespace NeuralDispatch

/-- What a graph node computes. -/
inductive OperationType where
  | add
  | averagePool2d
  | concatenation
  | conv2d
  | depthwiseConv2d
  | floor
  | fullyConnected
  | logistic
  | maxPool2d
  | mul
  | relu
  | reshape
  | softmax
  | tanh
  | batchToSpaceNd
  | div
  | mean
  | pad
  | spaceToBatchNd
  | squeeze
  | stridedSlice
  | sub
  | transpose
  | abs
  | argMax
  | cast
  | exp
  | gather
  | log
  | logSoftmax
  | maximum
  | minimum
  | neg
  | pow
  deriving DecidableEq, Inhabited, Repr

namespace OperationType

/-- Every operation type, in the order of the codes. -/
def all : List OperationType :=
  [add, averagePool2d, concatenation, conv2d, depthwiseConv2d, floor, fullyConnected, logistic,
    maxPool2d, mul, relu, reshape, softmax, tanh, batchToSpaceNd, div, mean, pad, spaceToBatchNd,
    squeeze, stridedSlice, sub, transpose, abs, argMax, cast, exp, gather, log, logSoftmax,
    maximum, minimum, neg, pow]

def code : OperationType → UInt32
  | add => 0
  | averagePool2d => 1
  | concatenation => 2
  | conv2d => 3
  | depthwiseConv2d => 4
  | floor => 8
  | fullyConnected => 9
  | logistic => 14
  | maxPool2d => 17
  | mul => 18
  | relu => 19
  | reshape => 22
  | softmax => 25
  | tanh => 28
  | batchToSpaceNd => 29
  | div => 30
  | mean => 31
  | pad => 32
  | spaceToBatchNd => 33
  | squeeze => 34
  | stridedSlice => 35
  | sub => 36
  | transpose => 37
  | abs => 38
  | argMax => 39
  | cast => 45
  | exp => 49
  | gather => 51
  | log => 60
  | logSoftmax => 64
  | maximum => 65
  | minimum => 66
  | neg => 67
  | pow => 70

/-- The type that has a code, if one has (`from_code`). -/
def ofCode? (c : UInt32) : Option OperationType := all.find? fun t => t.code == c

theorem ofCode?_code (t : OperationType) : ofCode? t.code = some t := by cases t <;> rfl

theorem code_of_ofCode? {c : UInt32} {t : OperationType} (h : ofCode? c = some t) :
    t.code = c := by
  simpa using List.find?_some h

def name : OperationType → String
  | add => "Add"
  | averagePool2d => "AveragePool2d"
  | concatenation => "Concatenation"
  | conv2d => "Conv2d"
  | depthwiseConv2d => "DepthwiseConv2d"
  | floor => "Floor"
  | fullyConnected => "FullyConnected"
  | logistic => "Logistic"
  | maxPool2d => "MaxPool2d"
  | mul => "Mul"
  | relu => "Relu"
  | reshape => "Reshape"
  | softmax => "Softmax"
  | tanh => "Tanh"
  | batchToSpaceNd => "BatchToSpaceNd"
  | div => "Div"
  | mean => "Mean"
  | pad => "Pad"
  | spaceToBatchNd => "SpaceToBatchNd"
  | squeeze => "Squeeze"
  | stridedSlice => "StridedSlice"
  | sub => "Sub"
  | transpose => "Transpose"
  | abs => "Abs"
  | argMax => "ArgMax"
  | cast => "Cast"
  | exp => "Exp"
  | gather => "Gather"
  | log => "Log"
  | logSoftmax => "LogSoftmax"
  | maximum => "Maximum"
  | minimum => "Minimum"
  | neg => "Neg"
  | pow => "Pow"

/-- The first revision that has the operation. -/
def introducedIn : OperationType → Revision
  | add | averagePool2d | concatenation | conv2d | depthwiseConv2d | floor | fullyConnected
  | logistic | maxPool2d | mul | relu | reshape | softmax | tanh => .v1_0
  | batchToSpaceNd | div | mean | pad | spaceToBatchNd | squeeze | stridedSlice | sub
  | transpose => .v1_1
  | abs | argMax | cast | exp | gather | log | logSoftmax | maximum | minimum | neg | pow => .v1_2

end OperationType

end NeuralDispatch

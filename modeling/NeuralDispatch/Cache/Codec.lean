import NeuralDispatch.Cache.Constants
import NeuralDispatch.Cache.Frame
import NeuralDispatch.Cache.Structure

/-!
# Compiled models as cache files

A compiled model is kept in two files: the model cache, which is sealed, and the data cache, which
holds the bytes of the constants.
-/

namespace NeuralDispatch.Cache

/-- The model cache of a model (`encode_model_cache`). -/
def encodeModel (m : Model) (token : Token) (key : Key) : Bytes :=
  Frame.write (Structure.write m) token key

/-- The data cache of a model (`encode_data_cache`). -/
def encodeData (m : Model) : Bytes := Constants.write m

/-- The model that a pair of cache files holds. -/
def decode (modelBytes dataBytes : Bytes) (token : Token) (key : Key) :
    Except CacheError Model := do
  let payload ← Frame.verify modelBytes token key
  let (m, _) ← Structure.read payload
  Constants.attach m dataBytes

end NeuralDispatch.Cache

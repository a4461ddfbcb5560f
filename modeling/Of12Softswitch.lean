import Of12Softswitch.Lib.Tag
import Of12Softswitch.Lib.TagSet
import Of12Softswitch.Lib.ListT.Basic
import Of12Softswitch.Lib.ListT.Ops
import Of12Softswitch.Lib.ListT.Splice
import Of12Softswitch.Lib.ListT.Iterate
import Of12Softswitch.Lib.ListT.Store
import Of12Softswitch.Oflib.Match
import Of12Softswitch.Oflib.Convert

import SpreadsNative.Topology
import SpreadsNative.Affinity
import SpreadsNative.RustSide
import SpreadsNative.MemOption

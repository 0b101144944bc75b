import Modellbahn.Expansion.Slots
import Modellbahn.Layout.Laps
import Modellbahn.Clock.Now
import Modellbahn.Log.Itm
import Modellbahn.Log.Trail
import Modellbahn.Sensors.Measurement
import Modellbahn.Sensors.StartReadout
